import Tinyflows.Graph.Channels

/-!
# Merging messages

The index kept beside the list always points at the last message under each id. The list after any number
of writes is the old one with the last holder of every written id replaced, followed by what was new.
-/

namespace Tinyflows.Graph.Channel
open Lib List

/-! ## The index -/

def lastHolder (id : String) : List (Option String) → Option Nat
  | [] => none
  | key :: keys =>
    match lastHolder id keys with
    | some i => some (i + 1)
    | none => if key = some id then some 0 else none

theorem lastHolder_append (id ke key) :
    lastHolder id (ke ++ [key]) = if key = some id then some ke.length else lastHolder id ke := by
  induction ke with
  | nil => simp [lastHolder]
  | cons k ke ih =>
    simp only [cons_append, lastHolder, ih]
    by_cases hk : key = some id <;> simp [hk]

variable {id : String} {ke : List (Option String)} {li : List Json}

theorem lastHolder_getElem? {i} (h : lastHolder id ke = some i) : ke[i]? = some (some id) := by
  induction ke generalizing i with
  | nil => cases h
  | cons key ke ih =>
    simp only [lastHolder] at h
    split at h
    next j hj =>
      cases h
      simpa using ih hj
    next =>
      split_ifs at h with hk
      cases h
      simp [hk]

theorem lastHolder_eq_none : lastHolder id ke = none ↔ some id ∉ ke := by
  induction ke with
  | nil => simp [lastHolder]
  | cons key ke ih =>
    simp only [lastHolder, mem_cons, not_or]
    split
    next i hi =>
      have : some id ∈ ke := by
        by_contra hn
        rw [ih.mpr hn] at hi
        cases hi
      simp [this]
    next ho =>
      have := ih.mp ho
      split_ifs with hk
      · simp [hk]
      · simp [this, Ne.symm hk]

def InStep (s : List Json × HashMap String Nat) : Prop :=
  ∀ id, s.2.lookup id = lastHolder id (s.1.map messageId)

theorem inStep_messageIndex (li) : InStep (li, messageIndex li) := by
  intro id
  simp only [messageIndex]
  induction li using List.reverseRecOn with
  | nil => rfl
  | append_singleton li me ih =>
    simp only [zipIdx_append, filterMap_append, map_append, map_cons, map_nil,
      lastHolder_append, HashMap.collect, foldl_append] at ih ⊢
    cases hi : messageId me with
    | none => simpa [hi] using ih
    | some key =>
      by_cases hk : key = id
      · subst hk
        simp [hi]
      · simp [hi, hk, Ne.symm hk, ih]

/-- The list after one write: the last message under the same id is replaced, or the write is appended. -/
def put (list : List Json) (message : Json) : List Json :=
  match messageId message with
  | none => list ++ [message]
  | some id =>
    match lastHolder id (list.map messageId) with
    | some i => list.set i message
    | none => list ++ [message]

theorem map_messageId_set {me i} (hd : messageId me = some id)
    (hi : lastHolder id (li.map messageId) = some i) :
    (li.set i me).map messageId = li.map messageId := by
  have hold := lastHolder_getElem? hi
  rw [map_set, hd]
  apply ext_getElem?
  intro j
  rw [getElem?_set]
  split_ifs with he hl
  · rw [← he, hold]
  · rw [← he, getElem?_eq_none (by omega)]
  · rfl

theorem InStep.writeMessage {s} (h : InStep s) (me) :
    InStep (writeMessage s me) ∧ (writeMessage s me).1 = put s.1 me := by
  unfold Channel.writeMessage put
  cases hi : messageId me with
  | none =>
    refine ⟨?_, rfl⟩
    intro id
    simp [lastHolder_append, hi, h id]
  | some key =>
    dsimp only
    rw [h key]
    cases hl : lastHolder key (s.1.map messageId) with
    | some i =>
      refine ⟨?_, rfl⟩
      intro id
      rw [map_messageId_set hi hl]
      exact h id
    | none =>
      refine ⟨?_, rfl⟩
      intro id
      simp only [map_append, map_cons, map_nil, lastHolder_append, hi]
      by_cases hk : key = id
      · subst hk
        simp
      · simp [Finmap.lookup_insert_of_ne _ (Ne.symm hk), hk, h id]

theorem mergeMessages_eq (li ic) : mergeMessages li ic = ic.foldl put li := by
  have hf : ∀ s : List Json × HashMap String Nat, InStep s →
      (ic.foldl Channel.writeMessage s).1 = ic.foldl put s.1 := by
    induction ic with
    | nil => exact fun s _ => rfl
    | cons me ic ih =>
      intro s hs
      obtain ⟨ht, hp⟩ := hs.writeMessage me
      rw [foldl_cons, foldl_cons, ih _ ht, hp]
  exact hf (li, messageIndex li) (inStep_messageIndex li)

/-! ## The list after a sequence of writes -/

def lastWritten (writes : List Json) (id : String) : Option Json :=
  writes.reverse.find? fun message => messageId message = some id

def updated (writes : List Json) (message : Json) : Json :=
  match messageId message with
  | some id => (lastWritten writes id).getD message
  | none => message

/-- The messages that were there, in their places: the last one under an id takes what was last written
under it. -/
def kept (writes : List Json) : List Json → List Json
  | [] => []
  | message :: rest =>
    (if (messageId message).isSome ∧ messageId message ∈ rest.map messageId then message
      else updated writes message) :: kept writes rest

/-- What is new, in write order: the messages without an id, and the first under each id that is not
known yet. -/
def added (known : List (Option String)) : List Json → List Json
  | [] => []
  | message :: writes =>
    if (messageId message).isSome ∧ messageId message ∈ known then added known writes
    else message :: added (messageId message :: known) writes

section Writes
variable {wr : List Json} {me : Json}

theorem lastWritten_cons (wr me id) :
    lastWritten (me :: wr) id =
      (lastWritten wr id).or (if messageId me = some id then some me else none) := by
  simp only [lastWritten, reverse_cons, find?_append, find?_cons, find?_nil]
  by_cases hi : messageId me = some id <;> simp [hi]

variable {ot : Json} {id : String} {kn : List (Option String)}

theorem updated_cons_of_ne (h : (messageId me).isSome → messageId ot ≠ messageId me) :
    updated (me :: wr) ot = updated wr ot := by
  unfold updated
  cases ho : messageId ot with
  | none => rfl
  | some id =>
    have hn : messageId me ≠ some id := by
      intro he
      exact h (by simp [he]) (by rw [ho, he])
    simp [lastWritten_cons, hn]

theorem updated_cons_of_eq (hm : messageId me = some id) (ho : messageId ot = some id) :
    updated (me :: wr) ot = updated wr me := by
  simp only [updated, hm, ho, lastWritten_cons]
  cases lastWritten wr id <;> simp

theorem updated_cons_self : updated (me :: wr) me = updated wr me := by
  cases hi : messageId me with
  | none => simp [updated, hi]
  | some id => exact updated_cons_of_eq hi hi

@[simp] theorem messageId_updated (wr me) : messageId (updated wr me) = messageId me := by
  cases hi : messageId me with
  | none => simp [updated, hi]
  | some id =>
    cases hl : lastWritten wr id with
    | none => simp [updated, hi, hl]
    | some la =>
      have := find?_some hl
      simpa [updated, hi, hl] using this

@[simp] theorem map_messageId_kept (wr li) : (kept wr li).map messageId = li.map messageId := by
  induction li with
  | nil => rfl
  | cons me re ih =>
    simp only [kept, map_cons, ih]
    split_ifs <;> simp

theorem kept_cons_write (li) (h : (messageId me).isSome → messageId me ∉ li.map messageId) :
    kept (me :: wr) li = kept wr li := by
  induction li with
  | nil => rfl
  | cons fi re ih =>
    simp only [map_cons, mem_cons, not_or] at h
    simp only [kept]
    rw [updated_cons_of_ne fun hs => Ne.symm (h hs).1, ih fun hs => (h hs).2]

theorem kept_append (li) (h : (messageId me).isSome → messageId me ∉ li.map messageId) :
    kept wr (li ++ [me]) = kept wr li ++ [updated wr me] := by
  induction li with
  | nil => simp [kept]
  | cons fi re ih =>
    simp only [map_cons, mem_cons, not_or] at h
    simp only [cons_append, kept, map_append, map_cons, map_nil, mem_append, mem_singleton]
    rw [ih fun hs => (h hs).2]
    have hc : (messageId fi).isSome ∧ (messageId fi ∈ re.map messageId ∨
        messageId fi = messageId me) ↔
        (messageId fi).isSome ∧ messageId fi ∈ re.map messageId := by
      constructor
      · rintro ⟨hs, hm | he⟩
        · exact ⟨hs, hm⟩
        · exact absurd he.symm (h (he ▸ hs)).1
      · exact fun ⟨hs, hm⟩ => ⟨hs, .inl hm⟩
    simp only [hc]

theorem kept_set (hd : messageId me = some id) (li) {i}
    (hi : lastHolder id (li.map messageId) = some i) :
    kept wr (li.set i me) = kept (me :: wr) li := by
  induction li generalizing i with
  | nil => cases hi
  | cons fi re ih =>
    simp only [map_cons, lastHolder] at hi
    cases hr : lastHolder id (re.map messageId) with
    | some j =>
      rw [hr] at hi
      cases hi
      simp only [set_cons_succ, kept, map_messageId_set hd hr, ih hr]
      have hm : some id ∈ re.map messageId := by
        by_contra hn
        rw [lastHolder_eq_none.mpr hn] at hr
        cases hr
      split_ifs with hs
      · rfl
      · rw [updated_cons_of_ne]
        intro _ he
        exact hs ⟨by simp [he, hd], by rw [he, hd]; exact hm⟩
    | none =>
      rw [hr] at hi
      have hn := lastHolder_eq_none.mp hr
      split_ifs at hi with hf
      cases hi
      simp only [set_cons_zero, kept, hd, hf, hn, and_false, if_false]
      rw [updated_cons_of_eq hd hf, kept_cons_write re fun _ => hd ▸ hn]

theorem added_congr {kn'} (wr) (h : ∀ id : String, some id ∈ kn ↔ some id ∈ kn') :
    added kn wr = added kn' wr := by
  induction wr generalizing kn kn' with
  | nil => rfl
  | cons me wr ih =>
    have hc : (messageId me).isSome ∧ messageId me ∈ kn ↔
        (messageId me).isSome ∧ messageId me ∈ kn' := by
      cases messageId me with
      | none => simp
      | some id => simp [h id]
    have hp : ∀ id : String, some id ∈ messageId me :: kn ↔
        some id ∈ messageId me :: kn' := fun id => by simp [h id]
    simp only [added, hc, ih h, ih hp]

theorem messageId_added {wr} (h : ot ∈ added kn wr)
    (hs : (messageId ot).isSome) : messageId ot ∉ kn := by
  induction wr generalizing kn with
  | nil => cases h
  | cons me wr ih =>
    simp only [added] at h
    split_ifs at h with hk
    · exact ih h
    · rcases mem_cons.mp h with rfl | h
      · exact fun hm => hk ⟨hs, hm⟩
      · exact fun hm => ih h (mem_cons_of_mem _ hm)

theorem map_updated_added (h : messageId me ∈ kn) :
    (added kn wr).map (updated (me :: wr)) =
      (added kn wr).map (updated wr) := by
  apply map_congr_left
  intro ot ho
  apply updated_cons_of_ne
  intro hs he
  exact messageId_added ho (he ▸ hs) (he ▸ h)

end Writes

theorem kept_nil (li) : kept [] li = li := by
  induction li with
  | nil => rfl
  | cons me re ih =>
    have hu : updated [] me = me := by
      cases hi : messageId me <;> simp [updated, hi, lastWritten]
    simp [kept, hu, ih]

theorem put_cases (li me) :
    (∃ id i, messageId me = some id ∧ lastHolder id (li.map messageId) = some i ∧
      put li me = li.set i me) ∨
    (((messageId me).isSome → messageId me ∉ li.map messageId) ∧
      put li me = li ++ [me]) := by
  unfold put
  cases hi : messageId me with
  | none => exact .inr ⟨by simp, rfl⟩
  | some id =>
    dsimp only
    cases hl : lastHolder id (li.map messageId) with
    | some i => exact .inl ⟨id, i, rfl, hl, rfl⟩
    | none => exact .inr ⟨fun _ => lastHolder_eq_none.mp hl, rfl⟩

theorem foldl_put (wr) :
    ∀ li, wr.foldl put li =
      kept wr li ++ (added (li.map messageId) wr).map (updated wr) := by
  induction wr with
  | nil =>
    intro li
    simp [kept_nil, added]
  | cons me wr ih =>
    intro li
    rw [foldl_cons, ih]
    obtain ⟨id, i, hi, hl, hp⟩ | ⟨hn, hp⟩ := put_cases li me
    · have hm : messageId me ∈ li.map messageId := by
        rw [hi]
        exact mem_of_getElem? (lastHolder_getElem? hl)
      have hs : added (li.map messageId) (me :: wr) = added (li.map messageId) wr := by
        rw [added, if_pos ⟨by simp [hi], hm⟩]
      rw [hp, kept_set hi li hl, map_messageId_set hi hl, hs, map_updated_added hm]
    · have hu : added (li.map messageId) (me :: wr) =
          me :: added (messageId me :: li.map messageId) wr := by
        rw [added, if_neg fun h => hn h.1 h.2]
      have hk : added ((li ++ [me]).map messageId) wr =
          added (messageId me :: li.map messageId) wr :=
        added_congr wr fun id => by simp [or_comm]
      rw [hp, kept_append li hn, hk, kept_cons_write li hn, hu, map_cons,
        updated_cons_self, map_updated_added mem_cons_self, append_assoc]
      rfl

/-! ## Sequences of updates -/

def mergeAll (c : Channel) : Option Json → List Json → Except GraphError (Option Json)
  | current, [] => .ok current
  | current, incoming :: updates =>
    match c.merge current incoming with
    | .error e => .error e
    | .ok merged => c.mergeAll (some merged) updates

def keyedIds (list : List Json) : List String :=
  list.filterMap messageId

theorem mergeAll_messages (up) :
    ∀ li, messages.mergeAll (some (.arr li)) up =
      .ok (some (.arr ((up.flatMap elements).foldl put li))) := by
  induction up with
  | nil =>
    intro li
    rfl
  | cons ic up ih =>
    intro li
    rw [mergeAll, flatMap_cons, foldl_append, ← mergeMessages_eq li]
    exact ih _

theorem mergeAll_messages_none (ic up) :
    messages.mergeAll none (ic :: up) = messages.mergeAll (some (.arr [])) (ic :: up) :=
  rfl

theorem added_sublist (kn wr) : (added kn wr).Sublist wr := by
  induction wr generalizing kn with
  | nil => exact List.Sublist.slnil
  | cons me wr ih =>
    simp only [added]
    split_ifs
    · exact (ih kn).cons me
    · exact (ih _).cons_cons me

theorem keyedIds_append (li more) : keyedIds (li ++ more) = keyedIds li ++ keyedIds more :=
  filterMap_append

theorem mem_keyedIds : id ∈ keyedIds li ↔ some id ∈ li.map messageId := by
  simp [keyedIds]

theorem keyedIds_of_map {ot} (h : li.map messageId = ot.map messageId) :
    keyedIds li = keyedIds ot := by
  have hk : ∀ l : List Json, keyedIds l = (l.map messageId).filterMap id := fun l => by
    simp [keyedIds, filterMap_map]
  rw [hk, hk, h]

theorem nodup_added (kn wr) : (keyedIds (added kn wr)).Nodup := by
  induction wr generalizing kn with
  | nil => exact nodup_nil
  | cons me wr ih =>
    simp only [added]
    split_ifs
    · exact ih kn
    · cases hi : messageId me with
      | none => simpa [keyedIds, hi] using ih _
      | some id =>
        have hn : id ∉ keyedIds (added (some id :: kn) wr) := by
          intro hm
          obtain ⟨ot, ho, he⟩ := mem_filterMap.mp hm
          exact messageId_added ho (by simp [he]) (by simp [he])
        have hr := ih (some id :: kn)
        simp only [keyedIds, filterMap_cons, hi]
        exact nodup_cons.mpr ⟨hn, hr⟩

theorem kept_of_nodup (wr) (h : (keyedIds li).Nodup) : kept wr li = li.map (updated wr) := by
  induction li with
  | nil => rfl
  | cons me re ih =>
    cases hi : messageId me with
    | none =>
      rw [keyedIds, filterMap_cons, hi] at h
      simp [kept, hi, ih h]
    | some id =>
      rw [keyedIds, filterMap_cons, hi] at h
      obtain ⟨hn, hr⟩ := nodup_cons.mp h
      have hs : some id ∉ re.map messageId := fun hm => hn (mem_keyedIds.mpr hm)
      simp only [kept, hi, hs, and_false, if_false, ih hr, map_cons]

theorem filter_unkeyed_added (kn wr) :
    (added kn wr).filter (messageId · = none) = wr.filter (messageId · = none) := by
  induction wr generalizing kn with
  | nil => rfl
  | cons me wr ih =>
    simp only [added]
    cases hi : messageId me with
    | none => simp [hi, ih]
    | some id => split_ifs <;> simp [hi, ih]

theorem mem_keyedIds_added {wr} (h : id ∈ keyedIds wr) :
    ∀ kn, some id ∈ kn ∨ id ∈ keyedIds (added kn wr) := by
  induction wr with
  | nil => cases h
  | cons me wr ih =>
    intro kn
    simp only [added]
    by_cases hi : messageId me = some id
    · rw [hi]
      split_ifs with hk
      · exact .inl hk.2
      · exact .inr (by simp [keyedIds, hi])
    · have hr : id ∈ keyedIds wr := by
        rw [keyedIds, mem_filterMap] at h ⊢
        obtain ⟨ot, ho, he⟩ := h
        rcases mem_cons.mp ho with rfl | ho
        · exact absurd he hi
        · exact ⟨ot, ho, he⟩
      split_ifs
      · exact ih hr kn
      · obtain hm | hm := ih hr (messageId me :: kn)
        · exact .inl ((mem_cons.mp hm).resolve_left (Ne.symm hi))
        · right
          rw [keyedIds, filterMap_cons]
          split
          · exact hm
          · exact mem_cons_of_mem _ hm

/-- Merging a sequence of updates always succeeds on a list of messages. The messages that were there stay
in their places, the last one under each written id replaced by what was last written under it; behind
them stand, in write order, the messages without an id and the first message under each new id, with
what was last written under it. Ids that were unique stay unique. -/
theorem messages_merge_sequence (list updates : List Json) : let writes := updates.flatMap elements
    let new := added (list.map messageId) writes
    messages.mergeAll (some (.arr list)) updates =
      .ok (some (.arr (kept writes list ++ new.map (updated writes)))) ∧
    (updates ≠ [] → messages.mergeAll none updates = messages.mergeAll (some (.arr [])) updates) ∧
    (kept writes list).map messageId = list.map messageId ∧
    new.Sublist writes ∧
    new.filter (messageId · = none) = writes.filter (messageId · = none) ∧
    (∀ id ∈ keyedIds new, id ∉ keyedIds list) ∧
    (∀ id ∈ keyedIds writes, id ∈ keyedIds list ∨ id ∈ keyedIds new) ∧
    ((keyedIds list).Nodup → kept writes list = list.map (updated writes) ∧
      (keyedIds (kept writes list ++ new.map (updated writes))).Nodup) := by
  intro writes new
  have hids : keyedIds (new.map (updated writes)) = keyedIds new := by
    apply keyedIds_of_map
    simp
  have hnew : ∀ id ∈ keyedIds new, id ∉ keyedIds list := by
    intro id hid hknown
    obtain ⟨other, hother, heq⟩ := mem_filterMap.mp hid
    exact messageId_added hother (by simp [heq]) (heq ▸ mem_keyedIds.mp hknown)
  refine ⟨?_, ?_, map_messageId_kept writes list, added_sublist _ _, filter_unkeyed_added _ _, hnew, ?_,
    ?_⟩
  · rw [mergeAll_messages, foldl_put]
  · intro hupdates
    obtain ⟨incoming, updates, rfl⟩ := exists_cons_of_ne_nil hupdates
    exact mergeAll_messages_none incoming updates
  · intro id hid
    exact (mem_keyedIds_added hid _).imp_left mem_keyedIds.mpr
  · intro hnodup
    refine ⟨kept_of_nodup writes hnodup, ?_⟩
    rw [keyedIds_append, hids, keyedIds_of_map (map_messageId_kept writes list)]
    refine hnodup.append (nodup_added _ _) ?_
    intro id hlist hid
    exact hnew id hid hlist

/-- A message that is replaced, one without an id and one under a new id that is written twice. -/
theorem messages_merge_sequence_three :
    messages.mergeAll (some (.arr [.object [("id", .str "a"), ("text", .str "old")]]))
        [.arr [.object [("id", .str "a"), ("text", .str "new")], .str "note"],
          .object [("id", .str "b"), ("text", .str "first")],
          .object [("id", .str "b"), ("text", .str "second")]] =
      .ok (some (.arr [.object [("id", .str "a"), ("text", .str "new")], .str "note",
        .object [("id", .str "b"), ("text", .str "second")]])) ∧
    (keyedIds [.object [("id", .str "a"), ("text", .str "old")]]).Nodup := by
  refine ⟨(messages_merge_sequence _ _).1.trans ?_, ?_⟩
  · decide
  · decide

end Tinyflows.Graph.Channel
