import Tinyflows.Storage.Migrated

/-!
# Every write of a migration leaves it under way
-/

namespace Tinyflows.Migrations
open Lib

/-! ## Data -/

def Data.set (d : Data) (collection id : String) (row : Option Row) : Data :=
  fun c i => if (c, i) = (collection, id) then row else d c i

theorem Data.set_self (d : Data) (co id row) : d.set co id row co id = row :=
  if_pos rfl

theorem Data.set_ne (d : Data) {co id c i} (row)
    (h : (c, i) ≠ (co, id)) : d.set co id row c i = d c i :=
  if_neg h

theorem dataOf_put (s co id row pre) :
    dataOf (s.commit 0 [.put (.row co id) row pre] none) = (dataOf s).set co id (some row) := by
  funext c i
  by_cases h : SchemaKey.row c i = .row co id
  · cases h
    simp [dataOf, Data.set]
  · simp only [SchemaKey.row.injEq] at h
    simp [dataOf, Data.set, h]

theorem dataOf_delete (s co id pre) :
    dataOf (s.commit 0 [.delete (.row co id) pre] none) = (dataOf s).set co id none := by
  funext c i
  by_cases h : SchemaKey.row c i = .row co id
  · cases h
    simp [dataOf, Data.set]
  · simp only [SchemaKey.row.injEq] at h
    simp [dataOf, Data.set, h]

theorem dataOf_progress (s ow item st) (p : Progress) (pre) :
    dataOf (s.commit 0 [.put (.progress ow item st) p pre] none) = dataOf s := by
  funext c i
  have hk : SchemaKey.row c i ≠ SchemaKey.progress ow item st := nofun
  simp [dataOf, hk]

/-! ## One record stored or dropped -/

section Step

variable {sc : Schema} {st : Step} {f : PerRecord} {be now : Data} {r r' : SourceRecord}
  {o o' : TargetRecord} {row : Row}

theorem IsSource.eq_of_id (hr : st.IsSource be r) (hr' : st.IsSource be r')
    (hi : r.id = r'.id) : r = r' := by
  obtain ⟨id, row⟩ := r
  obtain ⟨id', row'⟩ := r'
  cases hi
  have he : some row = some row' := hr.1.symm.trans hr'.1
  cases he
  rfl

theorem Orderly.own (h : Orderly st f be) (hr : st.IsSource be r) (ho : Yields f r o)
    (hr' : st.IsSource be r') (hk : o.key = (st.sourceName, r'.id)) : r = r' := by
  obtain ⟨hc, hi⟩ := Prod.mk.inj hk
  have hw := (h.place hr ho hc).2 (by rw [hi, hr'.1]; nofun)
  exact IsSource.eq_of_id hr hr' (hw.symm.trans hi)

theorem Holds.set (hd : Distinct st f be) (hO : Orderly st f be)
    (hr : st.IsSource be r) (ho : Yields f r o) (hw : IsOutput sc st r o row)
    (hr' : st.IsSource be r') (ho' : Yields f r' o') (h : Holds sc st now r' o') :
    Holds sc st (now.set o.collection o.id (some row)) r' o' := by
  by_cases hk : o'.key = o.key
  · obtain rfl := hd r' r o' o hr' hr ho' ho hk
    obtain rfl := hO.eq_of_key hr' ho' ho hk
    exact ⟨row, Data.set_self .., hw⟩
  · obtain ⟨row', hw', hu⟩ := h
    exact ⟨row', by rw [Data.set_ne _ _ hk, hw'], hu⟩

theorem Holds.drop {id} (hk : o'.key ≠ (st.sourceName, id))
    (h : Holds sc st now r' o') : Holds sc st (now.set st.sourceName id none) r' o' := by
  obtain ⟨row', hr', ho⟩ := h
  exact ⟨row', by rw [Data.set_ne _ _ hk, hr'], ho⟩

theorem Settled.set (hd : Distinct st f be) (hO : Orderly st f be)
    (hr : st.IsSource be r) (ho : Yields f r o) (hw : IsOutput sc st r o row)
    (hr' : st.IsSource be r') (h : Settled sc st f now r') :
    Settled sc st f (now.set o.collection o.id (some row)) r' where
  yields := h.yields
  stored ho' := (h.stored ho').set hd hO hr ho hw hr' ho'
  gone hn := by
    by_cases hk : (st.sourceName, r'.id) = o.key
    · obtain rfl := hO.own hr ho hr' hk.symm
      exact absurd hk.symm (hn o ho)
    · rw [Data.set_ne _ _ hk]
      exact h.gone hn

theorem Settled.drop
    (hn : ∀ r' o, st.IsSource be r' → Yields f r' o → o.key ≠ (st.sourceName, r.id))
    (hr' : st.IsSource be r') (h : Settled sc st f now r') :
    Settled sc st f (now.set st.sourceName r.id none) r' where
  yields := h.yields
  stored ho' := (h.stored ho').drop (hn r' _ hr' ho')
  gone ho := by
    by_cases hi : (st.sourceName, r'.id) = (st.sourceName, r.id)
    · rw [Data.set, if_pos hi]
    · rw [Data.set_ne _ _ hi]
      exact h.gone ho

theorem Underway.set (hd : Distinct st f be) (hO : Orderly st f be)
    (h : Underway sc st f be now) (hr : st.IsSource be r) (ho : Yields f r o)
    (hw : IsOutput sc st r o row)
    (hot : o.key = (st.sourceName, r.id) → ∀ o', Yields f r o' → o'.key ≠ o.key →
      Holds sc st now r o') : Underway sc st f be (now.set o.collection o.id (some row)) := by
  have ht : Holds sc st (now.set o.collection o.id (some row)) r o :=
    ⟨row, Data.set_self .., hw⟩
  refine ⟨fun {r'} hr' => ?_, fun {c i} hc => ?_⟩
  · by_cases hk : (st.sourceName, r'.id) = o.key
    · obtain rfl := hO.own hr ho hr' hk.symm
      obtain ⟨ou, hu, hm⟩ := ho
      refine .inr ⟨⟨ou, hu⟩, fun {o'} ho' => ?_, fun hn => ?_⟩
      · by_cases he : o'.key = o.key
        · obtain rfl := hO.eq_of_key hr ho' ⟨ou, hu, hm⟩ he
          exact ht
        · exact (hot hk.symm o' ho' he).set hd hO hr ⟨ou, hu, hm⟩ hw hr ho'
      · exact absurd hk.symm (hn o ⟨ou, hu, hm⟩)
    · rcases h.sources hr' with hs | hS
      · left
        rw [Data.set_ne _ _ hk, hs]
      · exact .inr (hS.set hd hO hr ho hw hr')
  · by_cases hk : (c, i) = o.key
    · exact .inr ⟨r, o, hr, ho, hk.symm, ht⟩
    · rcases h.others hc with hs | ⟨r', o', hr', ho', hk', hh⟩
      · left
        rw [Data.set_ne _ _ hk, hs]
      · exact .inr ⟨r', o', hr', ho', hk', hh.set hd hO hr ho hw hr' ho'⟩

theorem Underway.drop (h : Underway sc st f be now) (hr : st.IsSource be r)
    (hy : ∃ ou, f r = .ok ou) (ht : ∀ {o}, Yields f r o → Holds sc st now r o)
    (hn : ∀ r' o, st.IsSource be r' → Yields f r' o → o.key ≠ (st.sourceName, r.id)) :
    Underway sc st f be (now.set st.sourceName r.id none) ∧
      Settled sc st f (now.set st.sourceName r.id none) r := by
  have hs : Settled sc st f (now.set st.sourceName r.id none) r :=
    ⟨hy, fun {o} ho => (ht ho).drop (hn r o hr ho), fun _ => Data.set_self ..⟩
  refine ⟨⟨fun {r'} hr' => ?_, fun {c i} hc => ?_⟩, hs⟩
  · by_cases hi : r'.id = r.id
    · obtain rfl := IsSource.eq_of_id hr' hr hi
      exact .inr hs
    · rcases h.sources hr' with ha | hs'
      · left
        rw [Data.set_ne _ _ fun he => hi (congrArg Prod.snd he), ha]
      · exact .inr (hs'.drop hn hr')
  · rcases h.others hc with ha | ⟨r', o', hr', ho', hk', hh⟩
    · left
      rw [Data.set_ne _ _ (hc r hr), ha]
    · exact .inr ⟨r', o', hr', ho', hk', hh.drop (hn r' o' hr' ho')⟩

theorem Underway.start (sc st f d) : Underway sc st f d d :=
  ⟨fun hr => .inl hr.1, fun _ => .inl rfl⟩

theorem Underway.migrated (h : Underway sc st f be now)
    (hs : ∀ r, st.IsSource be r → Settled sc st f now r) : Migrated sc st f be now where
  stored hr ho := (hs _ hr).stored ho
  gone hr hn := (hs _ hr).gone fun o ho => hn _ o hr ho
  kept hc hn := by
    rcases h.others hc with ha | ⟨r, o, hr, ho, hk, -⟩
    · exact ha
    · exact absurd hk (hn r o hr ho)

theorem targetSchema_item (h : o.collection = st.item) {ve}
    (hv : targetSchema sc st o = .ok ve) : ve = st.to_ := by
  unfold targetSchema at hv
  dsimp only at hv
  split at hv
  · cases hv
  · rw [if_pos h] at hv
    exact (Except.ok.inj hv).symm

theorem not_takes_of_isOutput (hO : Orderly st f be) (hr : st.IsSource be r)
    (ho : Yields f r o) (hs : o.collection = st.sourceName) (hw : IsOutput sc st r o row) :
    st.takes row = false := by
  have hi := (hO.place hr ho hs).1
  have hv := targetSchema_item (hs.trans hi) hw.version
  simp [Step.takes, hi, hv]

theorem Underway.isSource (hO : Orderly st f be) (h : Underway sc st f be now)
    {id} (hw : now st.sourceName id = some row) (ht : st.takes row = true) :
    st.IsSource be ⟨id, row⟩ := by
  have hS : ∀ {r o}, st.IsSource be r → Yields f r o → o.key = (st.sourceName, id) →
      ¬ Holds sc st now r o := by
    rintro r o hr ho hk ⟨row', hw', hu⟩
    obtain ⟨hc, hi⟩ := Prod.mk.inj hk
    rw [hc, hi, hw] at hw'
    cases hw'
    rw [not_takes_of_isOutput hO hr ho hc hu] at ht
    cases ht
  by_cases hso : ∃ r, st.IsSource be r ∧ r.id = id
  · obtain ⟨r, hr, rfl⟩ := hso
    rcases h.sources hr with hs | he
    · rw [hw] at hs
      cases hs
      exact hr
    · by_cases hn : ∃ o, Yields f r o ∧ o.key = (st.sourceName, r.id)
      · obtain ⟨o, ho, hk⟩ := hn
        exact absurd (he.stored ho) (hS hr ho hk)
      · have hg := he.gone fun o ho hk => hn ⟨o, ho, hk⟩
        rw [hw] at hg
        cases hg
  · have hf : ∀ r, st.IsSource be r → (st.sourceName, id) ≠ (st.sourceName, r.id) :=
      fun r hr hq => hso ⟨r, hr, (congrArg Prod.snd hq).symm⟩
    rcases h.others hf with hs | ⟨r, o, hr, ho, hk, hh⟩
    · exact ⟨hs.symm.trans hw, ht⟩
    · exact absurd hh (hS hr ho hk)

end Step

end Tinyflows.Migrations
