import Mathlib.Data.List.AList
import Tinyflows.Lib.Triples

/-!
# A store of versioned documents

Every document has a version that moves with each write; a document written where there was none
starts at the first version, whatever was there before. Writes are conditional and are made in
batches, all or nothing. A call can also fail, and then it has done nothing.

The store keeps a log of the committed batches: by which program, and what the batch was for. It also
keeps to which program each identifier was given out.
-/

namespace Tinyflows.Lib
open List

structure Versioned (T : Type) where
  version : Nat
  doc : T
  deriving DecidableEq

inductive Precondition where
  | any
  | absent
  | version (v : Nat)
  deriving DecidableEq

inductive StoreError where
  | conflict
  | failure (message : String)
  deriving DecidableEq

def Precondition.unchanged {T : Type} (found : Option (Versioned T)) : Precondition :=
  found.elim .absent (.version ·.version)

def Precondition.holds {T : Type} (found : Option (Versioned T)) : Precondition → Bool
  | .any => true
  | .absent => found.isNone
  | .version v => found.any (·.version = v)

variable {K : Type} {D : K → Type} {N : Type}

inductive WriteOp (D : K → Type) where
  | put (k : K) (doc : D k) (pre : Precondition)
  | delete (k : K) (pre : Precondition)

def WriteOp.key : WriteOp D → K
  | .put k _ _ => k
  | .delete k _ => k

abbrev Documents (D : K → Type) := AList fun k => Versioned (D k)

structure Store (D : K → Type) (N : Type) where
  docs : Documents D := ∅
  issued : List Nat := []
  log : List (Nat × N) := []

/-- `unique` gives out identifiers, none of them twice. -/
inductive Call (D : K → Type) (N : Type) where
  | get (k : K)
  | list (p : K → Bool)
  | write (ops : List (WriteOp D)) (note : Option N)
  | unique

abbrev Call.Reply : Call D N → Type
  | .get k => Except StoreError (Option (Versioned (D k)))
  | .list _ => Except StoreError (List (Σ k, Versioned (D k)))
  | .write _ _ => Except StoreError Unit
  | .unique => Nat

abbrev Transaction (D : K → Type) (N α : Type) := Program (Call D N) Call.Reply α

namespace Transaction

def get (k : K) : Transaction D N (Except StoreError (Option (Versioned (D k)))) :=
  .call (.get k) .done

def list (p : K → Bool) : Transaction D N (Except StoreError (List (Σ k, Versioned (D k)))) :=
  .call (.list p) .done

def write (ops : List (WriteOp D)) (note : Option N) : Transaction D N (Except StoreError Unit) :=
  .call (.write ops note) .done

def unique : Transaction D N Nat :=
  .call .unique .done

end Transaction

section Serving

variable [DecidableEq K]

def WriteOp.admitted (docs : Documents D) : WriteOp D → Bool
  | .put k _ pre => pre.holds (docs.lookup k)
  | .delete k pre => pre.holds (docs.lookup k)

def Documents.nextVersion (docs : Documents D) (k : K) : Nat :=
  (docs.lookup k).elim 0 (·.version) + 1

def WriteOp.apply (docs : Documents D) : WriteOp D → Documents D
  | .put k doc _ => docs.insert k ⟨docs.nextVersion k, doc⟩
  | .delete k _ => docs.erase k

def Store.commit (s : Store D N) (i : Nat) (ops : List (WriteOp D)) (note : Option N) : Store D N where
  docs := ops.foldl WriteOp.apply s.docs
  issued := s.issued
  log := s.log ++ (note.map fun n => (i, n)).toList

/-- Reads and writes may fail, and then they leave the store as it was. -/
def Store.Serves (i : Nat) (s : Store D N) : (c : Call D N) → c.Reply → Store D N → Prop
  | .get k, r, u => u = s ∧ (r = .ok (s.docs.lookup k) ∨ ∃ m, r = .error (.failure m))
  | .list p, r, u =>
    u = s ∧ (r = .ok (s.docs.entries.filter fun e => p e.1) ∨ ∃ m, r = .error (.failure m))
  | .write ops note, r, u =>
    (ops.all (·.admitted s.docs) ∧ r = .ok () ∧ u = s.commit i ops note) ∨
    (¬ ops.all (·.admitted s.docs) ∧ r = .error .conflict ∧ u = s) ∨
    (∃ m, r = .error (.failure m) ∧ u = s)
  | .unique, r, u => r = s.issued.length ∧ u = { s with issued := s.issued ++ [i] }

def Store.answer (i : Nat) (s : Store D N) : (c : Call D N) → c.Reply × Store D N
  | .get k => (.ok (s.docs.lookup k), s)
  | .list p => (.ok (s.docs.entries.filter fun e => p e.1), s)
  | .write ops note =>
    if ops.all (·.admitted s.docs) then (.ok (), s.commit i ops note) else (.error .conflict, s)
  | .unique => (s.issued.length, { s with issued := s.issued ++ [i] })

theorem Store.serves_answer (i) (s) (c : Call D N) :
    Store.Serves i s c (Store.answer i s c).1 (Store.answer i s c).2 := by
  cases c with
  | get k => exact ⟨rfl, .inl rfl⟩
  | list p => exact ⟨rfl, .inl rfl⟩
  | write ops nt =>
    simp only [Store.answer]
    split
    · next ho => exact .inl ⟨ho, rfl, rfl⟩
    · next hc => exact .inr (.inl ⟨hc, rfl, rfl⟩)
  | unique => exact ⟨rfl, rfl⟩

/-! ## Looking a document up -/

variable {dc : Documents D} {k : K} {doc : D k} {pre : Precondition} {ops : List (WriteOp D)}
  {nt : Option N} {s : Store D N}

@[simp] theorem lookup_apply_put :
    (WriteOp.apply dc (.put k doc pre)).lookup k = some ⟨dc.nextVersion k, doc⟩ :=
  AList.lookup_insert _

@[simp] theorem lookup_apply_put_ne {k'} (h : k' ≠ k) :
    (WriteOp.apply dc (.put k doc pre)).lookup k' = dc.lookup k' :=
  AList.lookup_insert_ne h

@[simp] theorem lookup_apply_delete : (WriteOp.apply dc (.delete k pre)).lookup k = none :=
  AList.lookup_erase _ _

@[simp] theorem lookup_apply_delete_ne {k'} (h : k' ≠ k) :
    (WriteOp.apply dc (.delete k pre)).lookup k' = dc.lookup k' :=
  AList.lookup_erase_ne h

theorem lookup_apply_of_key_ne {op : WriteOp D} (h : op.key ≠ k) :
    (op.apply dc).lookup k = dc.lookup k := by
  cases op with
  | put k' doc pre => exact lookup_apply_put_ne (Ne.symm h)
  | delete k' pre => exact lookup_apply_delete_ne (Ne.symm h)

theorem lookup_foldl_apply (h : ∀ op ∈ ops, op.key ≠ k) :
    (ops.foldl WriteOp.apply dc).lookup k = dc.lookup k := by
  induction ops generalizing dc with
  | nil => rfl
  | cons op rest ih =>
    rw [foldl_cons, ih fun op' ho => h op' (mem_cons_of_mem _ ho),
      lookup_apply_of_key_ne (h op mem_cons_self)]

theorem lookup_foldl_apply_some {v : Versioned (D k)}
    (h : (ops.foldl WriteOp.apply dc).lookup k = some v) :
    dc.lookup k = some v ∨ ∃ pre, WriteOp.put k v.doc pre ∈ ops := by
  induction ops generalizing dc with
  | nil => exact .inl h
  | cons op rest ih =>
    rcases ih h with hd | ⟨pre, hm⟩
    · by_cases hk : op.key = k
      · subst hk
        cases op with
        | put k doc pre =>
          cases lookup_apply_put.symm.trans hd
          exact .inr ⟨pre, mem_cons_self⟩
        | delete k pre => cases lookup_apply_delete.symm.trans hd
      · exact .inl ((lookup_apply_of_key_ne hk).symm.trans hd)
    · exact .inr ⟨pre, mem_cons_of_mem _ hm⟩

theorem lookup_foldl_apply_append_put (h : ∀ op ∈ ops, op.key ≠ k) :
    ((ops ++ [WriteOp.put k doc pre]).foldl WriteOp.apply dc).lookup k =
      some ⟨dc.nextVersion k, doc⟩ := by
  rw [foldl_append, foldl_cons, foldl_nil, lookup_apply_put, Documents.nextVersion,
    lookup_foldl_apply h, Documents.nextVersion]

@[simp] theorem Store.commit_docs {i} :
    (s.commit i ops nt).docs = ops.foldl WriteOp.apply s.docs := rfl

@[simp] theorem Store.commit_log {i} :
    (s.commit i ops nt).log = s.log ++ (nt.map fun n => (i, n)).toList := rfl

theorem Precondition.eq_of_unchanged {T} {fo fo' : Option (Versioned T)}
    (h : (Precondition.unchanged fo).holds fo' = true) :
    fo.map (·.version) = fo'.map (·.version) := by
  cases fo with
  | none =>
    cases fo' with
    | none => rfl
    | some f => cases h
  | some f =>
    cases fo' with
    | none => cases h
    | some f' => simpa [unchanged, holds, eq_comm] using h

/-! ## Documents that stay -/

def Documents.Follows (k : K) (docs docs' : Documents D) : Prop :=
  ∀ a, docs.lookup k = some a →
    ∃ b, docs'.lookup k = some b ∧ a.version ≤ b.version ∧ (a.version = b.version → a = b)

namespace Documents.Follows

variable {k : K} {dc dc' dc'' : Documents D}

theorem of_lookup_eq (h : dc'.lookup k = dc.lookup k) : Follows k dc dc' :=
  fun a ha => ⟨a, h.trans ha, Nat.le_refl _, fun _ => rfl⟩

theorem refl (k) (dc : Documents D) : Follows k dc dc :=
  of_lookup_eq rfl

theorem trans (h : Follows k dc dc') (h' : Follows k dc' dc'') : Follows k dc dc'' := by
  intro a ha
  obtain ⟨b, hb, hab, he⟩ := h a ha
  obtain ⟨c, hc, hB, he'⟩ := h' b hb
  refine ⟨c, hc, Nat.le_trans hab hB, fun hv => ?_⟩
  have hv' : a.version = b.version := by omega
  rw [he hv', he' (by omega)]

theorem of_lookup_next {doc} (h : dc'.lookup k = some ⟨dc.nextVersion k, doc⟩) :
    Follows k dc dc' := by
  intro a ha
  have hv : dc.nextVersion k = a.version + 1 := by simp [nextVersion, ha]
  refine ⟨_, h, by simp only [hv]; omega, fun hs => ?_⟩
  simp only [hv] at hs
  omega

theorem put (k dc) (k') (doc : D k') (pre) :
    Follows k dc (WriteOp.apply dc (.put k' doc pre)) := by
  by_cases hk : k = k'
  · subst hk
    exact of_lookup_next lookup_apply_put
  · exact of_lookup_eq (lookup_apply_put_ne hk)

end Documents.Follows

/-! ## Rules -/

/-- Terms under which calls are served by a store, not necessarily in every way it could, and a call
may leave the store as it is. -/
structure OnDocuments (i : Nat) (T : Terms (Store D N) (Call D N) Call.Reply) : Prop where
  serves : ∀ {s c r u}, T.serves s c r u → Store.Serves i s c r u
  idle : ∀ s, T.guarantee s s

section Rules

variable {α : Type} {i : Nat} {T : Terms (Store D N) (Call D N) Call.Reply}
  {po : Store D N → α → Prop} {s : Store D N}

theorem meets_get (hT : OnDocuments i T) {k f}
    (hf : ∀ t m, T.inv t → T.rely s t → (f (.error (.failure m))).Meets T po t)
    (hd : ∀ t, T.inv t → T.rely s t → (f (.ok (t.docs.lookup k))).Meets T po t) :
    (Transaction.get k >>= f).Meets T po s := by
  intro t ht hr r u hu
  obtain ⟨rfl, rfl | ⟨m, rfl⟩⟩ := hT.serves hu
  · exact ⟨hT.idle u, ht, hd u ht hr⟩
  · exact ⟨hT.idle u, ht, hf u m ht hr⟩

theorem meets_list (hT : OnDocuments i T) {p f}
    (hf : ∀ t m, T.inv t → T.rely s t → (f (.error (.failure m))).Meets T po t)
    (hd : ∀ t, T.inv t → T.rely s t → (f (.ok (t.docs.entries.filter fun e => p e.1))).Meets T po t) :
    (Transaction.list p >>= f).Meets T po s := by
  intro t ht hr r u hu
  obtain ⟨rfl, rfl | ⟨m, rfl⟩⟩ := hT.serves hu
  · exact ⟨hT.idle u, ht, hd u ht hr⟩
  · exact ⟨hT.idle u, ht, hf u m ht hr⟩

theorem meets_write (hT : OnDocuments i T) {ops nt f}
    (hf : ∀ t e, T.inv t → T.rely s t → T.serves t (.write ops nt) (.error e) t →
      (f (.error e)).Meets T po t) (hw : ∀ t, T.inv t → T.rely s t → ops.all (·.admitted t.docs) →
      T.serves t (.write ops nt) (.ok ()) (t.commit i ops nt) →
      T.guarantee t (t.commit i ops nt) ∧ T.inv (t.commit i ops nt) ∧
        (f (.ok ())).Meets T po (t.commit i ops nt)) :
    (Transaction.write ops nt >>= f).Meets T po s := by
  intro t ht hr r u hu
  obtain ⟨ho, rfl, rfl⟩ | ⟨-, rfl, rfl⟩ | ⟨m, rfl, rfl⟩ := hT.serves hu
  · exact hw t ht hr ho hu
  · exact ⟨hT.idle u, ht, hf u _ ht hr hu⟩
  · exact ⟨hT.idle u, ht, hf u _ ht hr hu⟩

theorem meets_unique (hT : OnDocuments i T) {f} (h : ∀ t, T.inv t → T.rely s t →
      T.serves t .unique t.issued.length { t with issued := t.issued ++ [i] } →
      T.guarantee t { t with issued := t.issued ++ [i] } ∧
      T.inv { t with issued := t.issued ++ [i] } ∧
      (f t.issued.length).Meets T po { t with issued := t.issued ++ [i] }) :
    (Transaction.unique >>= f).Meets T po s := by
  intro t ht hr r u hu
  obtain ⟨rfl, rfl⟩ := hT.serves hu
  exact h t ht hr hu

end Rules

end Serving

/-!
## Stores whose calls do not fail

A conditional write may still be refused.
-/

def Call.failed : (c : Call D N) → c.Reply → Bool
  | .get _, .error (.failure _) => true
  | .list _, .error (.failure _) => true
  | .write _ _, .error (.failure _) => true
  | _, _ => false

variable [DecidableEq K]

structure Reliable (i : Nat) (T : Terms (Store D N) (Call D N) Call.Reply) : Prop
    extends OnDocuments i T where
  answers : ∀ {s c r u}, T.serves s c r u → c.failed r = false

namespace Reliable

variable {i : Nat} {T : Terms (Store D N) (Call D N) Call.Reply} {A E : Store D N → Prop}

theorem ensures_get (hT : Reliable i T) {k Q}
    (h : ∀ s t, A s → T.inv t → T.rely s t → Q t (t.docs.lookup k)) :
    Ensures T A (ExceptT.mk (Transaction.get k)) Q E := by
  intro s hs hA t ht hr r u hu
  have ha := hT.answers hu
  obtain ⟨rfl, rfl | ⟨m, rfl⟩⟩ := hT.serves hu
  · exact ⟨hT.idle u, ht, h s u hA ht hr⟩
  · cases ha

theorem ensures_list (hT : Reliable i T) {p Q}
    (h : ∀ s t, A s → T.inv t → T.rely s t → Q t (t.docs.entries.filter fun e => p e.1)) :
    Ensures T A (ExceptT.mk (Transaction.list p)) Q E := by
  intro s hs hA t ht hr r u hu
  have ha := hT.answers hu
  obtain ⟨rfl, rfl | ⟨m, rfl⟩⟩ := hT.serves hu
  · exact ⟨hT.idle u, ht, h s u hA ht hr⟩
  · cases ha

theorem ensures_write (hT : Reliable i T) {ops nt Q}
    (hf : ∀ s t, A s → T.inv t → T.rely s t → ¬ ops.all (·.admitted t.docs) → E t)
    (hw : ∀ s t, A s → T.inv t → T.rely s t → ops.all (·.admitted t.docs) →
      T.serves t (.write ops nt) (.ok ()) (t.commit i ops nt) →
      T.guarantee t (t.commit i ops nt) ∧ T.inv (t.commit i ops nt) ∧ Q (t.commit i ops nt) ()) :
    Ensures T A (ExceptT.mk (Transaction.write ops nt)) Q E := by
  intro s hs hA t ht hr r u hu
  have ha := hT.answers hu
  obtain ⟨ho, rfl, rfl⟩ | ⟨hc, rfl, rfl⟩ | ⟨m, rfl, rfl⟩ := hT.serves hu
  · exact hw s t hA ht hr ho hu
  · exact ⟨hT.idle u, ht, hf s u hA ht hr hc⟩
  · cases ha

end Reliable

end Tinyflows.Lib
