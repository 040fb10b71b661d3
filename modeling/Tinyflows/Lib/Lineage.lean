import Mathlib.Logic.Relation
import Tinyflows.Lib.HashMap

/-!
# Walks along parent pointers

Records name a parent, and nothing keeps the pointers from dangling or from running in a circle. Three
walks that end all the same: one that marks ancestors and stops at the first marked one, one that remembers
the ids it has seen, and one that takes every record it passes out of the map.
-/

namespace Tinyflows.Lib
open List Option Finmap

variable {Id : Type} [DecidableEq Id]

/-! ## Marking ancestors -/

def parentIn (m : HashMap Id (Option Id)) (id : Id) : Option Id :=
  (m.lookup id).join

variable {m : HashMap Id (Option Id)} {ma : HashSet Id}

theorem mem_keys_of_parentIn {id pa} (h : parentIn m id = some pa) : id ∈ m.keys := by
  rw [Finmap.mem_keys, Finmap.mem_iff]
  cases hl : m.lookup id with
  | none => simp [parentIn, hl] at h
  | some fo => exact ⟨fo, rfl⟩

def unmarked (m : HashMap Id (Option Id)) (marked : HashSet Id) : Option Id → Nat
  | none => 0
  | some _ => (m.keys \ marked).card + 1

theorem unmarked_lt (m) {id} (h : id ∉ ma) :
    unmarked m (insert id ma) (parentIn m id) < unmarked m ma (some id) := by
  cases hp : parentIn m id with
  | none => exact Nat.succ_pos _
  | some pa =>
    have hk := mem_keys_of_parentIn hp
    have hl : (m.keys \ insert id ma).card < (m.keys \ ma).card := by
      apply Finset.card_lt_card
      rw [Finset.ssubset_iff_of_subset
        (Finset.sdiff_subset_sdiff subset_rfl (Finset.subset_insert id ma))]
      exact ⟨id, by simp [hk, h], by simp⟩
    exact Nat.succ_lt_succ hl

def markChain (m : HashMap Id (Option Id)) (cursor : Option Id) (marked : HashSet Id) : HashSet Id :=
  match cursor with
  | none => marked
  | some id =>
    if id ∈ marked then marked
    else markChain m (parentIn m id) (insert id marked)
termination_by unmarked m marked cursor
decreasing_by exact unmarked_lt m ‹_›

def markAncestors (m : HashMap Id (Option Id)) (window : List Id) (marked : HashSet Id) : HashSet Id :=
  window.foldl (fun marked start => markChain m (parentIn m start) marked) marked

def Reaches (m : HashMap Id (Option Id)) : Id → Id → Prop :=
  Relation.ReflTransGen fun a b => parentIn m a = some b

structure Marks (m : HashMap Id (Option Id)) (cursor : Option Id) (marked result : HashSet Id) : Prop where
  keeps : marked ⊆ result
  adds : ∀ b ∈ result, b ∈ marked ∨ ∃ a, cursor = some a ∧ Reaches m a b
  reached : ∀ a, cursor = some a → a ∈ result
  closed : ∀ b ∈ result, b ∈ marked ∨ ∀ parent, parentIn m b = some parent → parent ∈ result

theorem marks_markChain (m) (cu : Option Id) (ma) : Marks m cu ma (markChain m cu ma) := by
  fun_induction markChain m cu ma with
  | case1 ma => exact ⟨subset_rfl, fun b hb => .inl hb, nofun, fun b hb => .inl hb⟩
  | case2 ma id hi =>
    refine ⟨subset_rfl, fun b hb => .inl hb, ?_, fun b hb => .inl hb⟩
    intro a ha
    cases ha
    exact hi
  | case3 ma id hi ih =>
    have hs := ih.keeps (Finset.mem_insert_self id ma)
    refine ⟨(Finset.subset_insert id ma).trans ih.keeps, ?_, ?_, ?_⟩
    · intro b hb
      rcases ih.adds b hb with hm | ⟨a, ha, hr⟩
      · rcases Finset.mem_insert.mp hm with rfl | hm
        · exact .inr ⟨b, rfl, .refl⟩
        · exact .inl hm
      · exact .inr ⟨id, rfl, .head ha hr⟩
    · intro a ha
      cases ha
      exact hs
    · intro b hb
      rcases ih.closed b hb with hm | hc
      · rcases Finset.mem_insert.mp hm with rfl | hm
        · exact .inr ih.reached
        · exact .inl hm
      · exact .inr hc

theorem markAncestors_spec (m) (wi : List Id) :
    ∀ ma : HashSet Id, ma ⊆ markAncestors m wi ma ∧
      (∀ b ∈ markAncestors m wi ma, b ∈ ma ∨ ∃ w ∈ wi, Reaches m w b) ∧
      ∀ b ∈ markAncestors m wi ma, (b ∈ ma ∧ b ∉ wi) ∨
        ∀ pa, parentIn m b = some pa → pa ∈ markAncestors m wi ma := by
  induction wi with
  | nil => exact fun ma => ⟨subset_rfl, fun b hb => .inl hb, fun b hb => .inl ⟨hb, by simp⟩⟩
  | cons w wi ih =>
    intro ma
    have hc := marks_markChain m (parentIn m w) ma
    obtain ⟨hk, hd, hl⟩ := ih (markChain m (parentIn m w) ma)
    change ma ⊆ markAncestors m wi _ ∧ _
    refine ⟨hc.keeps.trans hk, ?_, ?_⟩
    · intro b hb
      rcases hd b hb with hm | ⟨v, hv, hr⟩
      · rcases hc.adds b hm with hm | ⟨a, ha, hr⟩
        · exact .inl hm
        · exact .inr ⟨w, mem_cons_self, .head ha hr⟩
      · exact .inr ⟨v, mem_cons_of_mem _ hv, hr⟩
    · intro b hb
      rcases hl b hb with ⟨hm, hn⟩ | hp
      · by_cases hw : b = w
        · subst hw
          exact .inr fun pa hp => hk (hc.reached pa hp)
        · rcases hc.closed b hm with hM | hp
          · exact .inl ⟨hM, by simp [hw, hn]⟩
          · exact .inr fun pa h => hk (hp pa h)
      · exact .inr hp

theorem mem_markAncestors {wi} (hi : ∀ id, id ∈ wi ↔ id ∈ ma) {b} :
    b ∈ markAncestors m wi ma ↔ ∃ w ∈ ma, Reaches m w b := by
  obtain ⟨hk, ha, hc⟩ := markAncestors_spec m wi ma
  constructor
  · intro hb
    rcases ha b hb with hm | ⟨w, hw, hr⟩
    · exact ⟨b, hm, .refl⟩
    · exact ⟨w, (hi w).mp hw, hr⟩
  · rintro ⟨w, hw, hr⟩
    induction hr with
    | refl => exact hk hw
    | tail _ hp ih =>
      rcases hc _ ih with ⟨hm, hn⟩ | hP
      · exact absurd ((hi _).mpr hm) hn
      · exact hP _ hp

/-! ## Listing a lineage -/

/-- Point reads of a store of records: the latest one, or the one under an id. All ids it ever yields are
among finitely many. -/
structure Reader (Id T : Type) where
  read : Option Id → Option T
  idOf : T → Id
  parentOf : T → Option Id
  ids : HashSet Id
  known : ∀ cursor t, read cursor = some t → idOf t ∈ ids

namespace Reader

variable {T : Type} (r : Reader Id T)

/-- Follows the parents from a cursor on and lists what it reads. It ends at the limit, at a record that
cannot be read, at one without a parent, and at one whose id it has seen. -/
def walk (limit : Option Nat) (out : List T) (cursor : Option Id) (visited : HashSet Id) : List T :=
  if limit.any (· ≤ out.length) then out
  else
    match _hread : r.read cursor with
    | none => out
    | some t =>
      if r.idOf t ∈ visited then out
      else
        match r.parentOf t with
        | none => out ++ [t]
        | some parent => walk limit (out ++ [t]) (some parent) (insert (r.idOf t) visited)
termination_by (r.ids \ visited).card
decreasing_by
  apply Finset.card_lt_card
  rw [Finset.ssubset_iff_of_subset (Finset.sdiff_subset_sdiff subset_rfl (Finset.subset_insert _ visited))]
  exact ⟨r.idOf t, by simp [r.known cursor t ‹_›, *], by simp⟩

theorem walk_eq (li) (out) (cu) (vi) :
    r.walk li out cu vi =
      if li.any (· ≤ out.length) then out
      else match r.read cu with
        | none => out
        | some t =>
          if r.idOf t ∈ vi then out
          else match r.parentOf t with
            | none => out ++ [t]
            | some pa => r.walk li (out ++ [t]) (some pa) (insert (r.idOf t) vi) := by
  rw [walk]
  split_ifs
  · rfl
  · split <;> simp_all

def ancestor : Nat → Option T
  | 0 => r.read none
  | n + 1 => (ancestor n).bind fun t => (r.parentOf t).bind fun parent => r.read (some parent)

structure Lists (limit : Option Nat) (out : List T) : Prop where
  element : ∀ i t, out[i]? = some t → r.ancestor i = some t
  nodup : (out.map r.idOf).Nodup
  bounded : ∀ n, limit = some n → out.length ≤ n

variable {r}

variable {li : Option Nat} {out : List T} {t : T} {cu : Option Id} {i : Nat} {r' : Reader Id T}
  {φ : T → T}

omit [DecidableEq Id] in
theorem Lists.push (h : r.Lists li out) (ht : r.ancestor out.length = some t)
    (he : r.idOf t ∉ out.map r.idOf) (hr : ∀ n, li = some n → out.length < n) :
    r.Lists li (out ++ [t]) where
  element i u hu := by
    rcases Nat.lt_trichotomy i out.length with hi | rfl | hi
    · rw [getElem?_append_left hi] at hu
      exact h.element i u hu
    · rw [getElem?_concat_length] at hu
      rw [ht, hu]
    · rw [getElem?_eq_none (by simp; omega)] at hu
      cases hu
  nodup := by
    rw [map_append, nodup_append]
    refine ⟨h.nodup, by simp, ?_⟩
    rintro a ha b hb rfl
    exact he (mem_singleton.mp hb ▸ ha)
  bounded n hn := by
    have := hr n hn
    simp
    omega

def Ends (r : Reader Id T) (limit : Option Nat) (out : List T) : Prop :=
  limit = some out.length ∨ r.ancestor out.length = none ∨
    ∃ t, r.ancestor out.length = some t ∧ r.idOf t ∈ out.map r.idOf

theorem walk_spec {vi} (h : r.Lists li out) (hc : r.read cu = r.ancestor out.length)
    (hv : ∀ id, id ∈ vi ↔ id ∈ out.map r.idOf) :
    r.Lists li (r.walk li out cu vi) ∧ r.Ends li (r.walk li out cu vi) := by
  fun_induction r.walk li out cu vi with
  | case1 out cu vi hl =>
    obtain ⟨n, hn, he⟩ := (any_eq_true _ _).mp hl
    have := h.bounded n hn
    refine ⟨h, .inl ?_⟩
    rw [hn, Nat.le_antisymm this (by simpa using he)]
  | case2 out cu vi hl hr => exact ⟨h, .inr (.inl (hc ▸ hr))⟩
  | case3 out cu vi hl t hr hs =>
    exact ⟨h, .inr (.inr ⟨t, hc ▸ hr, (hv _).mp hs⟩)⟩
  | case4 out cu vi hl t hr hs hp =>
    have ho : ∀ n, li = some n → out.length < n := by
      intro n hn
      simpa [hn] using hl
    have ht := hc ▸ hr
    have hu := h.push ht (fun hm => hs ((hv _).mpr hm)) ho
    refine ⟨hu, .inr (.inl ?_)⟩
    simp [ancestor, ht, hp]
  | case5 out cu vi hl t hr hs pa hp ih =>
    have ho : ∀ n, li = some n → out.length < n := by
      intro n hn
      simpa [hn] using hl
    have ht := hc ▸ hr
    apply ih (h.push ht (fun hm => hs ((hv _).mpr hm)) ho)
    · simp [ancestor, ht, hp]
    · intro id
      simp [hv, or_comm]

def lineage (r : Reader Id T) (limit : Option Nat) : List T :=
  r.walk limit [] none ∅

theorem lineage_spec (r : Reader Id T) (li) : r.Lists li (r.lineage li) ∧ r.Ends li (r.lineage li) := by
  apply walk_spec
  · exact ⟨by simp, by simp, by simp⟩
  · rfl
  · simp

/-! ### What is listed -/

def Consistent (r : Reader Id T) : Prop :=
  ∀ cursor t, r.read cursor = some t → r.read (some (r.idOf t)) = some t

omit [DecidableEq Id] in
theorem ancestor_read {n} (h : r.ancestor n = some t) : ∃ cu, r.read cu = some t := by
  cases n with
  | zero => exact ⟨none, h⟩
  | succ n =>
    obtain ⟨u, -, h⟩ := bind_eq_some_iff.mp h
    obtain ⟨pa, -, h⟩ := bind_eq_some_iff.mp h
    exact ⟨some pa, h⟩

omit [DecidableEq Id] in
theorem ancestor_add_congr {j} (h : r.ancestor i = r.ancestor j) (n) :
    r.ancestor (i + n) = r.ancestor (j + n) := by
  induction n with
  | zero => exact h
  | succ n ih =>
    rw [← Nat.add_assoc, ← Nat.add_assoc]
    simp only [ancestor, ih]

omit [DecidableEq Id] in
theorem ancestor_none_of_le {j} (h : r.ancestor i = none) (hi : i ≤ j) : r.ancestor j = none := by
  induction hi with
  | refl => exact h
  | step _ ih => simp [ancestor, ih]

omit [DecidableEq Id] in
theorem Lists.of_lt (h : r.Lists li out) (hi : i < out.length) : r.ancestor i = some out[i] :=
  h.element i _ (getElem?_eq_getElem hi)

theorem read_of_mem_lineage (h : t ∈ r.lineage li) : ∃ cu, r.read cu = some t := by
  obtain ⟨i, hi, rfl⟩ := mem_iff_getElem.mp h
  exact ancestor_read ((r.lineage_spec li).1.of_lt hi)

theorem mem_lineage (hr : r.Consistent) (li) :
    t ∈ r.lineage li ↔ ∃ k, (∀ n, li = some n → k < n) ∧ r.ancestor k = some t := by
  obtain ⟨hl, hE⟩ := r.lineage_spec li
  constructor
  · intro ht
    obtain ⟨i, hi, rfl⟩ := mem_iff_getElem.mp ht
    exact ⟨i, fun n hn => lt_of_lt_of_le hi (hl.bounded n hn), hl.of_lt hi⟩
  · rintro ⟨k, hk, ha⟩
    by_cases hL : k < (r.lineage li).length
    · rw [hl.of_lt hL] at ha
      exact some.inj ha ▸ getElem_mem hL
    · rcases hE with hm | ho | ⟨u, hu, hs⟩
      · exact absurd (hk _ hm) hL
      · rw [ancestor_none_of_le ho (by omega)] at ha
        cases ha
      · -- Past the end the lineage repeats what stands from the seen id on.
        obtain ⟨v, hv, hd⟩ := mem_map.mp hs
        obtain ⟨j, hj, rfl⟩ := mem_iff_getElem.mp hv
        have hS : r.ancestor (r.lineage li).length = r.ancestor j := by
          obtain ⟨c, hc⟩ := ancestor_read hu
          obtain ⟨c', hc'⟩ := ancestor_read (hl.of_lt hj)
          rw [hu, hl.of_lt hj, ← hr c u hc, ← hr c' _ hc', hd]
        have hh : ∀ n, ∃ i, i < (r.lineage li).length ∧
            r.ancestor i = r.ancestor ((r.lineage li).length + n) := by
          intro n
          induction n using Nat.strong_induction_on with
          | _ n ih =>
            have hb := ancestor_add_congr hS n
            by_cases hsr : j + n < (r.lineage li).length
            · exact ⟨j + n, hsr, hb.symm⟩
            · obtain ⟨i, hi, he⟩ := ih (j + n - (r.lineage li).length) (by omega)
              refine ⟨i, hi, he.trans ?_⟩
              rw [hb, show (r.lineage li).length + (j + n - (r.lineage li).length) = j + n by omega]
        obtain ⟨i, hi, he⟩ := hh (k - (r.lineage li).length)
        rw [show (r.lineage li).length + (k - (r.lineage li).length) = k by omega, ha,
          hl.of_lt hi] at he
        exact some.inj he ▸ getElem_mem hi

/-! ### Two readers of the same lineage -/

theorem prefix_of_walk (li out cu) (vs) : out <+: r.walk li out cu vs := by
  fun_induction r.walk li out cu vs with
  | case5 out cu vs hl t hr hs pa hp ih =>
    exact (prefix_append out [t]).trans ih
  | case4 => exact prefix_append _ _
  | _ => exact prefix_rfl

/-- The second reader finds the record of the same id that `φ` gives. -/
structure Redirects (r r' : Reader Id T) (φ : T → T) : Prop where
  read : ∀ cursor, r'.read cursor = (r.read cursor).map φ
  idOf : r'.idOf = r.idOf
  parentOf : r'.parentOf = r.parentOf
  same : ∀ t, r.idOf (φ t) = r.idOf t

theorem Redirects.walk_of_fixed (h : Redirects r r' φ) (li out cu) (vs)
    (hf : ∀ t ∈ r.walk li out cu vs, φ t = t) : r'.walk li out cu vs = r.walk li out cu vs := by
  fun_induction r.walk li out cu vs with
  | case1 out cu vs hl => rw [walk_eq, if_pos hl]
  | case2 out cu vs hl hr => simp [walk_eq, hl, h.read, hr]
  | case3 out cu vs hl t hr hs =>
    simp [walk_eq, hl, h.read, hr, h.idOf, h.same, hs]
  | case4 out cu vs hl t hr hs hp =>
    have ht := hf t (by simp)
    simp [walk_eq, hl, h.read, hr, ht, h.idOf, hs, h.parentOf, hp]
  | case5 out cu vs hl t hr hs pa hp ih =>
    have hm : t ∈ r.walk li (out ++ [t]) (some pa) (insert (r.idOf t) vs) :=
      (prefix_of_walk li _ _ _).subset (by simp)
    have ht := hf t hm
    rw [walk_eq, if_neg hl]
    simpa [h.read, hr, ht, h.idOf, hs, h.parentOf, hp] using ih hf

theorem Redirects.lineage_eq_iff (h : Redirects r r' φ) (li) :
    r'.lineage li = r.lineage li ↔ ∀ t ∈ r.lineage li, φ t = t := by
  constructor
  · intro he
    obtain ⟨hl, -⟩ := r.lineage_spec li
    obtain ⟨hl', -⟩ := r'.lineage_spec li
    rw [he] at hl'
    intro t ht
    obtain ⟨i, hi, rfl⟩ := mem_iff_getElem.mp ht
    have hr : r'.ancestor i = (r.ancestor i).map φ := by
      cases i with
      | zero => exact h.read none
      | succ i =>
        have hi' : i < (r.lineage li).length := by omega
        simp only [ancestor, hl.of_lt hi', hl'.of_lt hi', h.parentOf, bind_some]
        cases r.parentOf (r.lineage li)[i] with
        | none => rfl
        | some pa => exact h.read (some pa)
    rw [hl'.of_lt hi, hl.of_lt hi] at hr
    exact (some.inj hr).symm
  · intro hf
    exact h.walk_of_fixed li [] none ∅ hf

theorem walk_map {T'} {r' : Reader Id T'} {f}
    (hr : ∀ cu, r'.read cu = (r.read cu).map f) (hi : ∀ t, r'.idOf (f t) = r.idOf t)
    (hp : ∀ t, r'.parentOf (f t) = r.parentOf t) (li out cu) (vi) :
    r'.walk li (out.map f) cu vi = (r.walk li out cu vi).map f := by
  fun_induction r.walk li out cu vi with
  | case1 out cu vi hl => rw [walk_eq, if_pos (by simpa using hl)]
  | case2 out cu vi hl hn => simp [walk_eq, hr, hn]
  | case3 out cu vi hl t hs he => simp [walk_eq, hr, hs, hi, he]
  | case4 out cu vi hl t hs he hn =>
    simp [walk_eq, hl, hr, hs, hi, he, hp, hn]
  | case5 out cu vi hl t hs he pa hf ih =>
    rw [walk_eq, if_neg (by simpa using hl)]
    simpa [hr, hs, hi, he, hp, hf] using ih

/-! ### Taking the records out of a map -/

/-- Follows the parents through a map and takes out every record it passes. -/
def consume (parentOf : T → Option Id) (limit : Option Nat) (out : List T) (byId : HashMap Id T)
    (cursor : Option Id) : List T :=
  match cursor with
  | none => out
  | some id =>
    if limit.any (· ≤ out.length) then out
    else
      match _hfound : byId.lookup id with
      | none => out
      | some t => consume parentOf limit (out ++ [t]) (byId.erase id) (parentOf t)
termination_by byId.keys.card
decreasing_by
  rw [keys_erase]
  exact Finset.card_erase_lt_of_mem (mem_keys.mpr (mem_of_lookup_eq_some ‹_›))

theorem consume_eq (po) (li out) (bi : HashMap Id T)
    (id) : consume po li out bi (some id) =
      if li.any (· ≤ out.length) then out
      else match bi.lookup id with
        | none => out
        | some t => consume po li (out ++ [t]) (bi.erase id) (po t) := by
  rw [consume]
  split_ifs
  · rfl
  · split <;> simp_all

theorem walk_congr_cursor {cu'} (h : r.read cu = r.read cu') (li out) (vs) :
    r.walk li out cu vs = r.walk li out cu' vs := by
  rw [walk_eq, walk_eq, h]

theorem consume_eq_walk (hi : ∀ id t, r.read (some id) = some t → r.idOf t = id)
    (li out) (bi) (id : Id) (vs)
    (hb : ∀ id, bi.lookup id = if id ∈ vs then none else r.read (some id)) :
    consume r.parentOf li out bi (some id) = r.walk li out (some id) vs := by
  generalize hc : some id = cu
  fun_induction r.walk li out cu vs generalizing bi id with
  | case1 out cu vs hl =>
    subst hc
    rw [consume_eq, if_pos hl]
  | case2 out cu vs hl hn =>
    subst hc
    simp [consume_eq, hb, hn]
  | case3 out cu vs hl t hs he =>
    subst hc
    rw [hi id t hs] at he
    simp [consume_eq, hb, he]
  | case4 out cu vs hl t hs he hn =>
    subst hc
    rw [hi id t hs] at he
    simp [consume_eq, hl, hb, he, hs, hn, consume]
  | case5 out cu vs hl t hs he pa hf ih =>
    subst hc
    have hS := hi id t hs
    rw [consume_eq, if_neg hl, hb, if_neg (hS ▸ he), hs]
    dsimp only
    rw [hf]
    apply ih _ _ _ rfl
    intro ot
    rw [hS]
    by_cases ho : ot = id
    · subst ho
      simp
    · simp [lookup_erase_ne ho, hb, ho]

end Reader

end Tinyflows.Lib
