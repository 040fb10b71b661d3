import Mathlib.Data.List.Sort
import Mathlib.Data.String.Basic
import Mathlib.Order.Lattice

/-!
# JSON values

An object is the list of its fields in the order of their keys, as an ordered map lists them.
-/

namespace Tinyflows.Lib
open List Option Prod

/-- A number is a natural one, a negative integer, or a floating point number known by its bits. -/
inductive Number where
  | posInt (n : UInt64)
  | negInt (n : Int)
  | float (bits : UInt64)
  deriving DecidableEq

inductive Json where
  | null
  | bool (b : Bool)
  | num (n : Number)
  | str (s : String)
  | arr (items : List Json)
  | obj (fields : List (String × Json))
  deriving Inhabited

instance lawfulOptionString : LawfulBEq (Option String) := inferInstance

namespace Json

/-! ## Equality -/

mutual

def eqb : Json → Json → Bool
  | null, null => true
  | bool a, bool b => a = b
  | num a, num b => a = b
  | str a, str b => a = b
  | arr as, arr bs => eqbItems as bs
  | obj as, obj bs => eqbFields as bs
  | _, _ => false

def eqbItems : List Json → List Json → Bool
  | [], [] => true
  | a :: as, b :: bs => eqb a b && eqbItems as bs
  | _, _ => false

def eqbFields : List (String × Json) → List (String × Json) → Bool
  | [], [] => true
  | (k, a) :: as, (k', b) :: bs => decide (k = k') && eqb a b && eqbFields as bs
  | _, _ => false

end

mutual

theorem eqb_iff : (a b : Json) → (eqb a b = true ↔ a = b)
  | null, b => by cases b <;> simp [eqb]
  | bool a, b => by cases b <;> simp [eqb]
  | num a, b => by cases b <;> simp [eqb]
  | str a, b => by cases b <;> simp [eqb]
  | arr as, b => by
    cases b with
    | arr bs => simp only [eqb, eqbItems_iff as bs, arr.injEq]
    | _ => simp [eqb]
  | obj as, b => by
    cases b with
    | obj bs => simp only [eqb, eqbFields_iff as bs, obj.injEq]
    | _ => simp [eqb]

theorem eqbItems_iff : (as bs : List Json) → (eqbItems as bs = true ↔ as = bs)
  | [], bs => by cases bs <;> simp [eqbItems]
  | a :: as, bs => by
    cases bs with
    | nil => simp [eqbItems]
    | cons b bs =>
      simp only [eqbItems, Bool.and_eq_true, eqb_iff a b, eqbItems_iff as bs, List.cons.injEq]

theorem eqbFields_iff : (as bs : List (String × Json)) → (eqbFields as bs = true ↔ as = bs)
  | [], bs => by cases bs <;> simp [eqbFields]
  | (k, a) :: as, bs => by
    cases bs with
    | nil => simp [eqbFields]
    | cons b bs =>
      obtain ⟨k', b⟩ := b
      simp only [eqbFields, Bool.and_eq_true, decide_eq_true_eq, eqb_iff a b, eqbFields_iff as bs,
        List.cons.injEq, mk.injEq]

end

instance : DecidableEq Json := fun a b => decidable_of_iff (eqb a b = true) (eqb_iff a b)

/-! ## Access -/

def fields : Json → List (String × Json)
  | obj fs => fs
  | _ => []

def get (j : Json) (key : String) : Option Json :=
  j.fields.lookup key

def isObject : Json → Bool
  | obj _ => true
  | _ => false

def asStr : Json → Option String
  | str s => some s
  | _ => none

def asBool : Json → Option Bool
  | bool b => some b
  | _ => none

def asU64 : Json → Option UInt64
  | num (.posInt n) => some n
  | _ => none

def asArray : Json → Option (List Json)
  | arr items => some items
  | _ => none

def asObject : Json → Option (List (String × Json))
  | obj fs => some fs
  | _ => none

def nat (n : Nat) : Json := num (.posInt (.ofNat n))

def insertField (key : String) (v : Json) : List (String × Json) → List (String × Json)
  | [] => [(key, v)]
  | (k, w) :: rest =>
    if key < k then (key, v) :: (k, w) :: rest
    else if key = k then (key, v) :: rest
    else (k, w) :: insertField key v rest

/-- Inserts fields one after the other. A later field replaces an earlier one of the same key. -/
def insertFields (fs extra : List (String × Json)) : List (String × Json) :=
  extra.foldl (fun acc f => insertField f.1 f.2 acc) fs

def object (fs : List (String × Json)) : Json :=
  obj (insertFields [] fs)

@[simp] theorem get_obj (fs) (key) :
    (obj fs).get key = fs.lookup key := rfl

/-! ## Insertion -/

theorem lookup_cons_eq (key k) (w) (rest : List (String × Json)) :
    List.lookup key ((k, w) :: rest) = if key = k then some w else List.lookup key rest := by
  rw [lookup_cons]
  split_ifs with h
  · rw [h, beq_self_eq_true]
  · rw [beq_false_of_ne h]

@[simp] theorem lookup_insertField_self (key) (v) (fs : List (String × Json)) :
    (insertField key v fs).lookup key = some v := by
  induction fs with
  | nil => simp [insertField]
  | cons f re ih =>
    obtain ⟨k, w⟩ := f
    simp only [insertField]
    split_ifs with hl he
    · rw [lookup_cons_eq, if_pos rfl]
    · rw [lookup_cons_eq, if_pos rfl]
    · rw [lookup_cons_eq, if_neg he, ih]

variable {key : String} {et fs : List (String × Json)} {f : String × Json}

theorem lookup_insertField_ne {ot} (h : ot ≠ key) (v) (fs) :
    (insertField key v fs).lookup ot = fs.lookup ot := by
  induction fs with
  | nil => simp only [insertField, lookup_cons_eq, if_neg h, lookup_nil]
  | cons f re ih =>
    obtain ⟨k, w⟩ := f
    simp only [insertField]
    split_ifs with hl he
    · rw [lookup_cons_eq, if_neg h]
    · subst he
      rw [lookup_cons_eq, lookup_cons_eq, if_neg h, if_neg h]
    · rw [lookup_cons_eq, lookup_cons_eq, ih]

theorem lookup_insertField (key ot) (v) (fs) :
    (insertField key v fs).lookup ot = if ot = key then some v else fs.lookup ot := by
  split_ifs with h
  · rw [h, lookup_insertField_self]
  · exact lookup_insertField_ne h v fs

theorem lookup_insertFields (h : (et.map fst).Nodup) (key) :
    (insertFields fs et).lookup key = (et.lookup key).or (fs.lookup key) := by
  induction et generalizing fs with
  | nil => rfl
  | cons f re ih =>
    obtain ⟨k, v⟩ := f
    rw [map_cons, nodup_cons] at h
    rw [insertFields, foldl_cons, ← insertFields, ih h.2, lookup_insertField, lookup_cons_eq]
    split_ifs with hk
    · have hn : re.lookup key = none := by
        rw [lookup_eq_none_iff]
        intro f hf
        rw [bne_iff_ne]
        rintro rfl
        exact h.1 (hk ▸ mem_map_of_mem hf)
      rw [hn]
      rfl
    · rfl

theorem lookup_insertFields_of_notMem (h : key ∉ et.map fst) :
    (insertFields fs et).lookup key = fs.lookup key := by
  induction et generalizing fs with
  | nil => rfl
  | cons f re ih =>
    rw [map_cons, mem_cons, not_or] at h
    rw [insertFields, foldl_cons, ← insertFields, ih h.2, lookup_insertField_ne h.1]

theorem isSome_lookup_insertFields (h : (fs.lookup key).isSome) (et) :
    ((insertFields fs et).lookup key).isSome := by
  induction et generalizing fs with
  | nil => exact h
  | cons f re ih =>
    refine ih ?_
    rw [lookup_insertField]
    split_ifs
    · rfl
    · exact h

theorem get_object (h : (fs.map fst).Nodup) (key) : (object fs).get key = fs.lookup key := by
  rw [object, get_obj, lookup_insertFields h, lookup_nil, or_none]

/-! ## Ordered fields -/

def Ordered (fs : List (String × Json)) : Prop :=
  fs.Pairwise fun a b => a.1 < b.1

theorem mem_insertField {v} (h : f ∈ insertField key v fs) : f = (key, v) ∨ f ∈ fs := by
  induction fs with
  | nil => exact .inl (mem_singleton.mp h)
  | cons g re ih =>
    obtain ⟨k, w⟩ := g
    simp only [insertField] at h
    split_ifs at h
    · exact mem_cons.mp h
    · exact (mem_cons.mp h).imp id (mem_cons_of_mem _)
    · rcases mem_cons.mp h with rfl | h
      · exact .inr mem_cons_self
      · exact (ih h).imp id (mem_cons_of_mem _)

theorem mem_insertField_self (key) (v) (fs) : (key, v) ∈ insertField key v fs := by
  induction fs with
  | nil => exact mem_singleton.mpr rfl
  | cons g re ih =>
    obtain ⟨k, w⟩ := g
    simp only [insertField]
    split_ifs
    · exact mem_cons_self
    · exact mem_cons_self
    · exact mem_cons_of_mem _ ih

theorem mem_insertFields (h : f ∈ insertFields fs et) : f ∈ fs ∨ f ∈ et := by
  induction et generalizing fs with
  | nil => exact .inl h
  | cons g re ih =>
    rcases ih h with hf | hf
    · rcases mem_insertField hf with rfl | hf
      · exact .inr mem_cons_self
      · exact .inl hf
    · exact .inr (mem_cons_of_mem _ hf)

theorem Ordered.insertField (h : Ordered fs) (key) (v) : Ordered (insertField key v fs) := by
  induction fs with
  | nil => exact pairwise_singleton _ _
  | cons f re ih =>
    obtain ⟨k, w⟩ := f
    obtain ⟨hh, hr⟩ := pairwise_cons.mp h
    simp only [Json.insertField]
    split_ifs with hl he
    · refine pairwise_cons.mpr ⟨fun g hg => ?_, h⟩
      rcases mem_cons.mp hg with rfl | hg
      · exact hl
      · exact hl.trans (hh g hg)
    · exact pairwise_cons.mpr ⟨he ▸ hh, hr⟩
    · refine pairwise_cons.mpr ⟨fun g hg => ?_, ih hr⟩
      rcases mem_insertField hg with rfl | hg
      · exact lt_of_le_of_ne (not_lt.mp hl) (Ne.symm he)
      · exact hh g hg

theorem Ordered.insertFields (h : Ordered fs) (et) : Ordered (insertFields fs et) := by
  induction et generalizing fs with
  | nil => exact h
  | cons f re ih => exact ih (h.insertField f.1 f.2)

theorem Ordered.nodup_keys (h : Ordered fs) : (fs.map fst).Nodup :=
  pairwise_map.mpr (h.imp fun hl => hl.ne)

theorem lookup_none_of_lt (h : ∀ f ∈ fs, key < f.1) : fs.lookup key = none := by
  induction fs with
  | nil => rfl
  | cons f re ih =>
    obtain ⟨k, w⟩ := f
    rw [lookup_cons_eq, if_neg (h _ mem_cons_self).ne]
    exact ih fun g hg => h g (mem_cons_of_mem _ hg)

theorem Ordered.ext {as bs} (ha : Ordered as) (hb : Ordered bs)
    (h : ∀ key, as.lookup key = bs.lookup key) : as = bs := by
  induction as generalizing bs with
  | nil =>
    cases bs with
    | nil => rfl
    | cons b bs =>
      have hb' := h b.1
      rw [lookup_nil, lookup_cons_eq, if_pos rfl] at hb'
      cases hb'
  | cons a as ih =>
    obtain ⟨k, v⟩ := a
    obtain ⟨hK, hr⟩ := pairwise_cons.mp ha
    cases bs with
    | nil =>
      have ha' := h k
      rw [lookup_nil, lookup_cons_eq, if_pos rfl] at ha'
      cases ha'
    | cons b bs =>
      obtain ⟨k', v'⟩ := b
      obtain ⟨hkb, hs⟩ := pairwise_cons.mp hb
      -- the first keys are equal, as each is the least key of its list
      have hkk : k = k' := by
        rcases lt_trichotomy k k' with hl | hq | hg
        · have hk := h k
          rw [lookup_cons_eq, if_pos rfl, lookup_cons_eq, if_neg hl.ne,
            lookup_none_of_lt fun f hf => hl.trans (hkb f hf)] at hk
          cases hk
        · exact hq
        · have hk := h k'
          rw [lookup_cons_eq, if_neg hg.ne, lookup_none_of_lt fun f hf => hg.trans (hK f hf),
            lookup_cons_eq, if_pos rfl] at hk
          cases hk
      subst hkk
      have hv : v = v' := by
        have hk := h k
        rw [lookup_cons_eq, if_pos rfl, lookup_cons_eq, if_pos rfl] at hk
        exact some.inj hk
      subst hv
      rw [ih hr hs fun key => ?_]
      by_cases he : key = k
      · rw [he, lookup_none_of_lt hK, lookup_none_of_lt hkb]
      · have hk := h key
        rwa [lookup_cons_eq, if_neg he, lookup_cons_eq, if_neg he] at hk

theorem insertField_insertField_self (key) (v w) (fs) :
    insertField key v (insertField key w fs) = insertField key v fs := by
  induction fs with
  | nil => simp [insertField]
  | cons f re ih =>
    obtain ⟨k, x⟩ := f
    by_cases hl : key < k
    · simp [insertField, hl]
    · by_cases he : key = k
      · simp [insertField, he]
      · simp [insertField, hl, he, ih]

theorem insertField_comm (h : Ordered fs) {k k'} (hn : k ≠ k') (v v') :
    insertField k v (insertField k' v' fs) = insertField k' v' (insertField k v fs) := by
  refine Ordered.ext ((h.insertField k' v').insertField k v) ((h.insertField k v).insertField k' v') ?_
  intro key
  simp only [lookup_insertField]
  split_ifs with hk hk'
  · exact absurd (hk.symm.trans hk') hn
  · rfl
  · rfl
  · rfl

/-! ## Paths -/

def atPath (j : Json) : List String → Option Json
  | [] => some j
  | key :: path => (j.get key).bind fun v => v.atPath path

@[simp] theorem atPath_nil (j : Json) : j.atPath [] = some j := rfl

@[simp] theorem atPath_cons (j : Json) (key) (path) :
    j.atPath (key :: path) = (j.get key).bind fun v => v.atPath path := rfl

theorem atPath_append (j : Json) (p q) :
    j.atPath (p ++ q) = (j.atPath p).bind fun v => v.atPath q := by
  induction p generalizing j with
  | nil => rfl
  | cons key p ih =>
    rw [cons_append, atPath_cons, atPath_cons, bind_assoc]
    exact bind_congr fun v _ => ih v

theorem null_atPath {pa} (h : pa ≠ []) : null.atPath pa = none := by
  cases pa with
  | nil => exact absurd rfl h
  | cons key pa => rfl

def nest : List String → Json → Json
  | [], v => v
  | key :: path, v => obj [(key, nest path v)]

/-- The keys of every object inside are in order. -/
def Sorted (j : Json) : Prop :=
  ∀ path v, j.atPath path = some v → Ordered v.fields

theorem Sorted.fields {j} (h : Sorted j) : Ordered j.fields :=
  h [] j rfl

theorem Sorted.getD {j} (h : Sorted j) (key) : Sorted ((j.get key).getD null) := by
  intro pa v hv
  cases hk : j.get key with
  | none =>
    rw [hk] at hv
    cases pa with
    | nil =>
      cases hv
      exact List.Pairwise.nil
    | cons _ _ => cases hv
  | some w =>
    rw [hk] at hv
    refine h (key :: pa) v ?_
    rw [atPath_cons, hk]
    exact hv

end Json

end Tinyflows.Lib
