import Tinyflows.Lib.Documents

/-!
# Records under compare-and-swap

A repository's record is changed by reading it, computing the next value and writing that on the
condition that the record is still what was read. A lost write starts over with a new read.
-/

namespace Tinyflows.Storage
open Lib

/-- The operations on one record. The closure of `update` is called once per attempt and may carry a
state of its own from one call to the next. -/
structure Repo (M : Type → Type) (T : Type) where
  get : M (Except StoreError (Option (Versioned T)))
  update : {σ : Type} → (σ → Option T → Except StoreError (Option T) × σ) → σ →
    M (Except StoreError (Option T) × σ)
  deleteIf : (T → Bool) → M (Except StoreError Bool)

namespace Repo

variable {K : Type} {D : K → Type} {N : Type}

def updateOnce {σ : Type} (k : K) (note : D k → Option N)
    (f : σ → Option (D k) → Except StoreError (Option (D k)) × σ) (c : σ)
    (lost : σ → Transaction D N (Except StoreError (Option (D k)) × σ)) :
    Transaction D N (Except StoreError (Option (D k)) × σ) := do
  match ← Transaction.get k with
  | .error e => return (.error e, c)
  | .ok found =>
    match f c (found.map (·.doc)) with
    | (.error e, c) => return (.error e, c)
    | (.ok none, c) => return (.ok none, c)
    | (.ok (some next), c) =>
      match ← Transaction.write [.put k next (.unchanged found)] (note next) with
      | .ok () => return (.ok (some next), c)
      | .error .conflict => lost c
      | .error e => return (.error e, c)

/-- `left` attempts may be lost before the last one. -/
def updateLoop {σ : Type} (k : K) (note : D k → Option N)
    (f : σ → Option (D k) → Except StoreError (Option (D k)) × σ) :
    Nat → σ → Transaction D N (Except StoreError (Option (D k)) × σ)
  | 0, c => updateOnce k note f c fun c => return (.error .conflict, c)
  | left + 1, c => updateOnce k note f c (updateLoop k note f left)

def deleteOnce (k : K) (accepts : D k → Bool) (lost : Transaction D N (Except StoreError Bool)) :
    Transaction D N (Except StoreError Bool) := do
  match ← Transaction.get k with
  | .error e => return .error e
  | .ok none => return .ok false
  | .ok (some found) =>
    if accepts found.doc then
      match ← Transaction.write [.delete k (.version found.version)] none with
      | .ok () => return .ok true
      | .error .conflict => lost
      | .error e => return .error e
    else return .ok false

def deleteLoop (k : K) (accepts : D k → Bool) : Nat → Transaction D N (Except StoreError Bool)
  | 0 => deleteOnce k accepts (return .error .conflict)
  | left + 1 => deleteOnce k accepts (deleteLoop k accepts left)

/-- The record stored under `k`, with a budget of attempts of which at least one is made. -/
def at_ (k : K) (attempts : Nat) (note : D k → Option N := fun _ => none) :
    Repo (Transaction D N) (D k) where
  get := Transaction.get k
  update f c := updateLoop k note f (attempts - 1) c
  deleteIf f := deleteLoop k f (attempts - 1)

end Repo

/-!
## A write that commits follows from the record it replaces

As long as a version identifies what was written under it, a record changed under compare-and-swap is
replaced by what the closure makes of exactly the record that is stored then.
-/

namespace Repo

variable {K : Type} [DecidableEq K] {D : K → Type} {N : Type} {σ : Type}

/-- Between two states the version of a record tells its content. -/
def Identifies (k : K) (s t : Store D N) : Prop :=
  ∀ a b, s.docs.lookup k = some a → t.docs.lookup k = some b → a.version = b.version → a = b

theorem Identifies.lookup_eq {k} {s t : Store D N} (h : Identifies k s t)
    (ho : (Precondition.unchanged (s.docs.lookup k)).holds (t.docs.lookup k) = true) :
    s.docs.lookup k = t.docs.lookup k := by
  have hv := Precondition.eq_of_unchanged ho
  cases hs : s.docs.lookup k with
  | none =>
    cases ht : t.docs.lookup k with
    | none => rfl
    | some b => rw [hs, ht] at hv; cases hv
  | some a =>
    cases ht : t.docs.lookup k with
    | none => rw [hs, ht] at hv; cases hv
    | some b =>
      rw [hs, ht] at hv
      rw [h a b hs ht (Option.some.inj hv)]

section Rules

variable {i : Nat} {T : Terms (Store D N) (Call D N) Call.Reply} {P : Store D N → Prop} {k : K}

/-- What has to be shown of a closure: `P` is what the program knows and the others leave alone. A
write commits where the version is still the one read. -/
structure Updates (i : Nat) (T : Terms (Store D N) (Call D N) Call.Reply) (P : Store D N → Prop) (k : K)
    (note : D k → Option N) (f : σ → Option (D k) → Except StoreError (Option (D k)) × σ)
    (post : Store D N → Except StoreError (Option (D k)) × σ → Prop) : Prop where
  known : ∀ {s t}, T.inv t → T.rely s t → P s → P t
  failed : ∀ {t e c}, T.inv t → P t → post t (.error e, c)
  declined : ∀ {t c c'}, T.inv t → P t → f c ((t.docs.lookup k).map (·.doc)) = (.ok none, c') →
    post t (.ok none, c')
  written : ∀ {s t c c' body pre}, T.inv s → P s → T.inv t → P t → T.rely s t →
    f c ((s.docs.lookup k).map (·.doc)) = (.ok (some body), c') →
    (Precondition.unchanged (s.docs.lookup k)).holds (t.docs.lookup k) →
    T.serves t (.write [.put k body pre] (note body)) (.ok ())
      (t.commit i [.put k body pre] (note body)) →
    T.guarantee t (t.commit i [.put k body pre] (note body)) ∧
      T.inv (t.commit i [.put k body pre] (note body)) ∧
      post (t.commit i [.put k body pre] (note body)) (.ok (some body), c')

section Update

variable {nt : D k → Option N} {f : σ → Option (D k) → Except StoreError (Option (D k)) × σ}
  {po : Store D N → Except StoreError (Option (D k)) × σ → Prop}

variable {s : Store D N}

theorem Updates.once (hT : OnDocuments i T) (h : Updates i T P k nt f po) (hP : P s) (c) {lo}
    (hl : ∀ t c, T.inv t → P t → (lo c).Meets T po t) : (updateOnce k nt f c lo).Meets T po s := by
  refine meets_get hT (fun t m ht hr => h.failed ht (h.known ht hr hP)) ?_
  intro t ht hr
  have hPt := h.known ht hr hP
  rcases hf : f c ((t.docs.lookup k).map (·.doc)) with ⟨e | _ | bo, c'⟩
  · simp only [hf]
    exact h.failed ht hPt
  · simp only [hf]
    exact h.declined ht hPt hf
  · simp only [hf]
    refine meets_write hT (fun u e hu hr' _ => ?_) fun u hu hr' ho hs => ?_
    · have hPu := h.known hu hr' hPt
      cases e with
      | conflict => exact hl u c' hu hPu
      | failure m => exact h.failed hu hPu
    · simp only [List.all_cons, List.all_nil, Bool.and_true, WriteOp.admitted] at ho
      exact h.written ht hPt hu (h.known hu hr' hPt) hr' hf ho hs

theorem Updates.loop (hT : OnDocuments i T) (h : Updates i T P k nt f po) (hP : P s) (lf c) :
    (updateLoop k nt f lf c).Meets T po s := by
  induction lf generalizing s c with
  | zero => exact h.once hT hP c fun t c ht hPt => h.failed ht hPt
  | succ lf ih => exact h.once hT hP c fun t c _ hPt => ih hPt c

end Update

structure Deletes (i : Nat) (T : Terms (Store D N) (Call D N) Call.Reply) (P : Store D N → Prop) (k : K)
    (accepts : D k → Bool) (post : Store D N → Except StoreError Bool → Prop) : Prop where
  known : ∀ {s t}, T.inv t → T.rely s t → P s → P t
  ends : ∀ {t r}, T.inv t → P t → post t r
  deleted : ∀ {s t found pre}, T.inv s → T.inv t → P t → T.rely s t → s.docs.lookup k = some found →
    accepts found.doc = true → (Precondition.version found.version).holds (t.docs.lookup k) →
    T.serves t (.write [.delete k pre] none) (.ok ()) (t.commit i [.delete k pre] none) →
    T.guarantee t (t.commit i [.delete k pre] none) ∧ T.inv (t.commit i [.delete k pre] none) ∧
      P (t.commit i [.delete k pre] none)

variable {ac : D k → Bool} {po : Store D N → Except StoreError Bool → Prop} {s : Store D N}

theorem Deletes.once (hT : OnDocuments i T) (h : Deletes i T P k ac po) (hP : P s)
    {lo} (hl : ∀ t, T.inv t → P t → lo.Meets T po t) : (deleteOnce k ac lo).Meets T po s := by
  refine meets_get hT (fun t m ht hr => h.ends ht (h.known ht hr hP)) ?_
  intro t ht hr
  have hPt := h.known ht hr hP
  cases hf : t.docs.lookup k with
  | none => exact h.ends ht hPt
  | some fo =>
    dsimp only
    split_ifs with ha
    · refine meets_write hT (fun u e hu hr' _ => ?_) fun u hu hr' ho hs => ?_
      · have hPu := h.known hu hr' hPt
        cases e with
        | conflict => exact hl u hu hPu
        | failure m => exact h.ends hu hPu
      · simp only [List.all_cons, List.all_nil, Bool.and_true, WriteOp.admitted] at ho
        obtain ⟨hg, hi, hPd⟩ :=
          h.deleted ht hu (h.known hu hr' hPt) hr' hf ha ho hs
        exact ⟨hg, hi, h.ends hi hPd⟩
    · exact h.ends ht hPt

theorem Deletes.loop (hT : OnDocuments i T) (h : Deletes i T P k ac po) (hP : P s) (lf) :
    (deleteLoop k ac lf).Meets T po s := by
  induction lf generalizing s with
  | zero => exact h.once hT hP fun t ht hPt => h.ends ht hPt
  | succ lf ih => exact h.once hT hP fun t _ hPt => ih hPt

end Rules

end Repo

end Tinyflows.Storage
