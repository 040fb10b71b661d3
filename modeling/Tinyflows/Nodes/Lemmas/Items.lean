import Tinyflows.Nodes.ItemMap

/-!
# The loop over the completions

After any part of the completions has been filed, exactly the slots of its items are settled and the
error kept is the lowest of theirs. Where the loop stops early, every lower slot is settled, so no lower
item can fail.
-/

namespace Tinyflows.Nodes
open Lib Engine List

variable {Diagnostic : Type} {f : Nat → Except EngineError (MappedItem Diagnostic)}
  {po : ItemErrorPolicy} {tt : Nat}

def filed (policy : ItemErrorPolicy) (f : Nat → Except EngineError (MappedItem Diagnostic))
    (index : Nat) : Except String (MappedItem Diagnostic) :=
  match f index with
  | .ok mapped => .ok mapped
  | .error e => .error (if policy = .failFast then "" else e.message)

structure FirstFails (f : Nat → Except EngineError (MappedItem Diagnostic)) (total index : Nat)
    (e : EngineError) : Prop where
  bound : index < total
  fails : f index = .error e
  before : ∀ j < index, ∀ e', f j ≠ .error e'

structure Filed (policy : ItemErrorPolicy) (f : Nat → Except EngineError (MappedItem Diagnostic))
    (total : Nat) (done : List Nat) (b : Batch Diagnostic) : Prop where
  length : b.slots.length = total
  slot : ∀ i < total, b.slots[i]? = some (if i ∈ done then some (filed policy f i) else none)
  lenient : policy ≠ .failFast → b.failFastError = none
  clean : policy = .failFast → b.failFastError = none → ∀ i ∈ done, ∀ e, f i ≠ .error e
  lowest : ∀ i e, b.failFastError = some (i, e) →
    i ∈ done ∧ f i = .error e ∧ ∀ j ∈ done, ∀ e', f j = .error e' → i ≤ j

theorem filed_start (po) (f : Nat → Except EngineError (MappedItem Diagnostic)) (tt) :
    Filed po f tt [] { slots := List.replicate tt none } where
  length := by simp
  slot i hi := by simp [hi]
  lenient _ := rfl
  clean _ _ := by simp
  lowest _ _ h := nomatch h

variable {b : Batch Diagnostic} {dn : List Nat} {ix : Nat}

theorem Filed.slot_set (h : Filed po f tt dn b) (hn : ix < tt) :
    ∀ i < tt, (b.slots.set ix (some (filed po f ix)))[i]? =
      some (if i ∈ ix :: dn then some (filed po f i) else none) := by
  intro i hi
  rw [getElem?_set]
  by_cases he : ix = i
  · subst he
    simp [h.length, hn]
  · simp [he, h.slot i hi, Ne.symm he]

theorem Filed.settle (h : Filed po f tt dn b) (hin : ix < tt) :
    Filed po f tt (ix :: dn) (b.settle po ix (f ix)).1 := by
  have hs := h.slot_set hin
  cases hf : f ix with
  | ok mapped =>
    have hF : filed po f ix = .ok mapped := by simp [filed, hf]
    rw [hF] at hs
    refine ⟨by simpa [Batch.settle] using h.length, hs, h.lenient, ?_, ?_⟩
    · intro ho hn i hi e
      rcases mem_cons.mp hi with rfl | hi
      · simp [hf]
      · exact h.clean ho hn i hi e
    · intro i e hl
      obtain ⟨hm, ha, he⟩ := h.lowest i e hl
      refine ⟨mem_cons_of_mem _ hm, ha, ?_⟩
      intro j hj e' hj'
      rcases mem_cons.mp hj with rfl | hj
      · simp [hf] at hj'
      · exact he j hj e' hj'
  | error err =>
    by_cases ho : po = .failFast
    case neg =>
      have hF : filed po f ix = .error err.message := by simp [filed, hf, ho]
      rw [hF] at hs
      have hn := h.lenient ho
      simp only [Batch.settle, if_neg ho]
      exact ⟨by simpa using h.length, hs, fun _ => hn, fun hp => absurd hp ho,
        fun i e hl => by simp [hn] at hl⟩
    case pos =>
      subst ho
      have hF : filed .failFast f ix = .error "" := by simp [filed, hf]
      rw [hF] at hs
      simp only [Batch.settle, if_true]
      refine ⟨by simpa using h.length, hs, fun hp => absurd rfl hp, fun _ hn => (nomatch hn), ?_⟩
      intro i e hl
      replace hl := Option.some.inj hl
      cases hS : b.failFastError with
      | none =>
        rw [hS] at hl
        cases hl
        refine ⟨mem_cons_self, hf, ?_⟩
        intro j hj e' hj'
        rcases mem_cons.mp hj with rfl | hj
        · exact Nat.le_refl _
        · exact absurd hj' (h.clean rfl hS j hj e')
      | some se =>
        obtain ⟨hm, ha, he⟩ := h.lowest se.1 se.2 hS
        simp only [hS] at hl
        split at hl <;> cases hl
        · refine ⟨mem_cons_self, hf, ?_⟩
          intro j hj e' hj'
          rcases mem_cons.mp hj with rfl | hj
          · exact Nat.le_refl _
          · have := he j hj e' hj'
            omega
        · refine ⟨mem_cons_of_mem _ hm, ha, ?_⟩
          intro j hj e' hj'
          rcases mem_cons.mp hj with rfl | hj
          · omega
          · exact he j hj e' hj'

theorem Filed.settle_stops (h : Filed po f tt dn b) (hn : ix < tt)
    (hd : ∀ i ∈ dn, i < tt) (hs : (b.settle po ix (f ix)).2 = true) :
    po = .failFast ∧
      ∃ i e, (b.settle po ix (f ix)).1.failFastError = some (i, e) ∧ FirstFails f tt i e := by
  have ha := h.settle hn
  have hS : po = .failFast ∧ ∃ lo, (b.settle po ix (f ix)).1.failFastError = some lo ∧
      ((b.settle po ix (f ix)).1.slots.take lo.1).all Option.isSome := by
    cases hf : f ix with
    | ok ma => simp [hf, Batch.settle] at hs
    | error err =>
      by_cases hp : po = .failFast
      · subst hp
        rw [hf] at hs
        exact ⟨rfl, _, rfl, hs⟩
      · simp [hf, Batch.settle, hp] at hs
  obtain ⟨hp, ⟨i, e⟩, hl, hal⟩ := hS
  obtain ⟨hm, hF, he⟩ := ha.lowest i e hl
  have hi : i < tt := by
    rcases mem_cons.mp hm with rfl | hm
    · exact hn
    · exact hd i hm
  refine ⟨hp, i, e, hl, hi, hF, ?_⟩
  intro j hj e' hj'
  -- The slot of a lower item is settled, so that item has completed and would be the lowest failure.
  have hsl := ha.slot j (by omega)
  have ho : (if j ∈ ix :: dn then some (filed po f j) else none).isSome := by
    rw [all_eq_true] at hal
    apply hal
    apply mem_of_getElem? (i := j)
    rw [getElem?_take_of_lt hj]
    exact hsl
  have hJ : j ∈ ix :: dn := by
    by_contra ht
    simp [ht] at ho
  have := he j hJ e' hj'
  omega

/-- The whole loop: either all completions are filed, or the stream is dropped with the error of the
first item to fail. -/
theorem Filed.drain (od) :
    ∀ {dn : List Nat} {b : Batch Diagnostic}, Filed po f tt dn b →
      (∀ i ∈ dn, i < tt) → (∀ i ∈ od, i < tt) →
      Filed po f tt (od.reverse ++ dn) (b.drain po f od) ∨
        po = .failFast ∧
          ∃ i e, (b.drain po f od).failFastError = some (i, e) ∧ FirstFails f tt i e := by
  induction od with
  | nil =>
    intro dn b h _ _
    exact .inl h
  | cons ix od ih =>
    intro dn b h hd ho
    have hn := ho ix mem_cons_self
    have hs := h.settle_stops hn hd
    have ha := h.settle hn
    unfold Batch.drain
    split
    next b' he =>
      rw [he] at hs
      exact .inr (hs rfl)
    next b' he =>
      rw [he] at ha
      have hr := ih ha (by simpa [hn] using hd) fun i hi => ho i (mem_cons_of_mem _ hi)
      simpa using hr

/-! ## The sequential reference -/

theorem mapSequentially_eq_emitSlots (co) :
    ∀ ix, (po = .failFast → ∀ i, ix ≤ i → i < ix + co → ∀ e, f i ≠ .error e) →
      mapSequentially po f ix co =
        .ok (emitSlots po ix ((List.range' ix co).map fun i => some (filed po f i))) := by
  induction co with
  | zero =>
    intro ix _
    rfl
  | succ co ih =>
    intro ix ho
    have hr := ih (ix + 1) fun hp i hi hi' => ho hp i (by omega) (by omega)
    rw [range'_succ]
    simp only [mapSequentially, map_cons, emitSlots, hr]
    cases hf : f ix with
    | ok ma => simp [filed, hf, Except.map]
    | error e =>
      cases po with
      | failFast => exact absurd hf (ho rfl ix (Nat.le_refl _) (by omega) e)
      | collect => simp [filed, hf, Except.map]
      | skip => simp [filed, hf]

theorem mapSequentially_failFast {i e} (h : FirstFails f tt i e) (co) :
    ∀ ix, ix ≤ i → i < ix + co → mapSequentially .failFast f ix co = .error e := by
  induction co with
  | zero =>
    intro ix _ _
    omega
  | succ co ih =>
    intro ix hl ht
    by_cases he : ix = i
    · subst he
      simp [mapSequentially, h.fails]
    · have hr := ih (ix + 1) (by omega) (by omega)
      cases hf : f ix with
      | ok ma => simp [mapSequentially, hf, hr, Except.map]
      | error e' => exact absurd hf (h.before ix (by omega) e')

theorem drain_cases {od} (ho : od.Perm (List.range tt)) :
    let b := Batch.drain po f od { slots := List.replicate tt none }
    (po = .failFast ∧ ∃ i e, b.failFastError = some (i, e) ∧ FirstFails f tt i e) ∨
      (b.failFastError = none ∧ (po = .failFast → ∀ i < tt, ∀ e, f i ≠ .error e) ∧
        b.slots = (List.range tt).map fun i => some (filed po f i)) := by
  intro b
  have hm : ∀ i, i ∈ od.reverse ++ [] ↔ i < tt := by
    intro i
    rw [append_nil, mem_reverse, ho.mem_iff, mem_range]
  obtain h | ht := (filed_start po f tt).drain od (by simp) fun i hi => (hm i).mp (by simpa using hi)
  case inr => exact .inl ht
  case inl =>
    cases hs : b.failFastError with
    | some lo =>
      obtain ⟨hd, hf, hl⟩ := h.lowest lo.1 lo.2 hs
      have hp : po = .failFast := by
        by_contra hn
        cases (h.lenient hn).symm.trans hs
      have hi := (hm _).mp hd
      refine .inl ⟨hp, lo.1, lo.2, rfl, hi, hf, ?_⟩
      intro j hj e' hj'
      have := hl j ((hm j).mpr (by omega)) e' hj'
      omega
    | none =>
      refine .inr ⟨rfl, fun hp i hi => h.clean hp hs i ((hm i).mpr hi), ?_⟩
      apply ext_getElem?
      intro i
      by_cases hi : i < tt
      · rw [h.slot i hi, if_pos ((hm i).mpr hi)]
        simp [hi]
      · rw [getElem?_eq_none (by rw [h.length]; omega), getElem?_eq_none (by simp; omega)]

theorem mapItems_eq_sequential {op od} (ho : od.Perm (List.range tt)) :
    mapItems tt op f od = mapSequentially op.onItemError f 0 tt := by
  simp only [mapItems]
  obtain ⟨hp, i, e, hl, hf⟩ | ⟨hn, hk, hs⟩ :=
    @drain_cases _ f op.onItemError _ _ ho
  · rw [hl, hp]
    exact (mapSequentially_failFast hf tt 0 (Nat.zero_le _) (by simpa using hf.bound)).symm
  · rw [hn, hs, mapSequentially_eq_emitSlots tt 0 fun hp i _ hi =>
      hk hp i (by omega), range_eq_range']

end Tinyflows.Nodes
