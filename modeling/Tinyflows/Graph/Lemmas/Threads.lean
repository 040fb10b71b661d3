import Tinyflows.Graph.Threads
import Tinyflows.Lib.Keyed

/-!
# The store after any calls
-/

namespace Tinyflows.Graph.CheckpointStore
open Lib List PendingWrite Finmap

variable {S V : Type}

/-! ## What a call leaves -/

variable {wt es : List (PendingWrite V)} {s : CheckpointStore S V}
  {th : ThreadId}

theorem lookup_putWrites (s : CheckpointStore S V) (th ns id) (h : wt ≠ []) (key) :
    (s.putWrites th ns id wt).writes.lookup key =
      if key = (th, ns, id) then some (mergeWrites ((s.writes.lookup key).getD []) wt)
      else s.writes.lookup key := by
  rw [putWrites, if_neg (by simpa using h)]
  split_ifs with hk
  · subst hk
    exact lookup_insert _
  · exact lookup_insert_of_ne _ hk

theorem getThread_deleteThread (s : CheckpointStore S V) (th oh) :
    (s.deleteThread th).getThread oh = if oh = th then [] else s.getThread oh := by
  unfold deleteThread getThread
  split_ifs with ho
  · subst ho
    simp
  · simp [lookup_erase_ne ho]

theorem getThread_deleteCheckpoints (s : CheckpointStore S V) (th oh ids) :
    (s.deleteCheckpoints th ids).1.getThread oh =
      if oh = th then (s.getThread th).filter (·.checkpointId ∉ ids)
      else s.getThread oh := by
  unfold deleteCheckpoints
  by_cases hi : ids = []
  · subst hi
    split_ifs <;> simp_all
  · rw [if_neg (by simpa using hi)]
    cases hr : s.inner.lookup th with
    | none =>
      have he : s.getThread th = [] := by simp [getThread, hr]
      split_ifs with ho
      · subst ho
        simp [he]
      · rfl
    | some records =>
      have ht : s.getThread th = records := by simp [getThread, hr]
      split_ifs with ho
      · subst ho
        rw [ht]
        simp [getThread]
      · simp [getThread, lookup_insert_of_ne _ ho]

theorem lookup_deleteCheckpoints {ids key}
    (h : (s.deleteCheckpoints th ids).1.writes.lookup key = some wt) :
    s.writes.lookup key = some wt := by
  unfold deleteCheckpoints at h
  split_ifs at h with hi
  · exact h
  · cases hr : s.inner.lookup th with
    | none => simpa [hr] using h
    | some re =>
      simp only [hr, HashMap.lookup_retain] at h
      split_ifs at h
      exact h

/-! ## Merging -/

def Merged (writes : List (PendingWrite V)) : Prop :=
  (writes.map (·.identity)).Nodup

theorem mergeWrite_identities (es) (wr : PendingWrite V) :
    (mergeWrite es wr).map (·.identity) = pushKey (es.map (·.identity)) wr.identity :=
  keys_place identity wr.isControlPlane es wr

theorem Merged.mergeWrite (h : Merged es) (wr : PendingWrite V) : Merged (mergeWrite es wr) := by
  rw [Merged, mergeWrite_identities]
  exact nodup_pushKey h _

theorem Merged.mergeWrites (h : Merged es) (ic) : Merged (mergeWrites es ic) := by
  induction ic generalizing es with
  | nil => exact h
  | cons wr ic ih => exact ih (h.mergeWrite wr)

theorem mergeWrites_identities (es ic : List (PendingWrite V)) :
    (mergeWrites es ic).map (·.identity) =
      (ic.map (·.identity)).foldl pushKey (es.map (·.identity)) := by
  induction ic generalizing es with
  | nil => rfl
  | cons wr ic ih =>
    rw [mergeWrites, foldl_cons, ← mergeWrites, ih, mergeWrite_identities]; rfl

theorem isSome_held_mergeWrites {ic id} (h : id ∈ es.map (·.identity) ∨ id ∈ ic.map (·.identity)) :
    (held identity (mergeWrites es ic) id).isSome := by
  refine Option.isSome_iff_ne_none.mpr fun hn => held_eq_none.mp hn ?_
  exact mergeWrites_identities es ic ▸ mem_foldl_pushKey.mpr h

theorem held_mergeWrite (es) (wr : PendingWrite V) (id) :
    held identity (mergeWrite es wr) id =
      if wr.identity = id then
        some (if wr.isControlPlane then wr else (held identity es id).getD wr)
      else held identity es id :=
  held_place identity wr.isControlPlane es wr id

theorem held_mergeWrites_control {id} (h : id.2 < 0) (es ic : List (PendingWrite V)) :
    held identity (mergeWrites es ic) id =
      (ic.reverse.find? (·.identity = id)).or (held identity es id) := by
  induction ic using List.reverseRecOn with
  | nil => rfl
  | append_singleton ic wr ih =>
    rw [mergeWrites, foldl_concat, ← mergeWrites, held_mergeWrite, ih, reverse_concat]
    by_cases hi : wr.identity = id
    · have hc : wr.isControlPlane = true := by
        subst hi; simpa [isControlPlane, identity] using h
      simp [hi, hc]
    · simp [hi]

theorem held_mergeWrites_data {id} (h : 0 ≤ id.2) (es ic : List (PendingWrite V)) :
    held identity (mergeWrites es ic) id = (held identity es id).or (ic.find? (·.identity = id)) := by
  induction ic generalizing es with
  | nil => simp [mergeWrites]
  | cons wr ic ih =>
    rw [mergeWrites, foldl_cons, ← mergeWrites, ih, held_mergeWrite]
    by_cases hi : wr.identity = id
    · have hc : wr.isControlPlane = false := by
        subst hi; simpa [isControlPlane, identity] using h
      cases held identity es id <;> simp [hi, hc]
    · simp [hi]

theorem mergeWrites_again (h : Merged es) (ic : List (PendingWrite V)) :
    mergeWrites (mergeWrites es ic) ic = mergeWrites es ic := by
  refine eq_of_held ?_ ((h.mergeWrites ic).mergeWrites ic) fun id => ?_
  · rw [mergeWrites_identities, foldl_pushKey_of_subset]
    rw [mergeWrites_identities]
    exact fun id hi => mem_foldl_pushKey.mpr (.inr hi)
  · rcases Int.lt_or_le id.2 0 with hc | hd
    · rw [held_mergeWrites_control hc, held_mergeWrites_control hc, ← Option.or_assoc, Option.or_self]
    · rw [held_mergeWrites_data hd, held_mergeWrites_data hd, Option.or_assoc, Option.or_self]

theorem mergeWrites_nil (h : Merged wt) : mergeWrites [] wt = wt := by
  suffices ∀ es ig : List (PendingWrite V), Merged (es ++ ig) →
      mergeWrites es ig = es ++ ig from this [] wt h
  intro es ig
  induction ig generalizing es with
  | nil => simp [mergeWrites]
  | cons wr ig ih =>
    intro hm
    have hn : mergeWrite es wr = es ++ [wr] := by
      have ho : es.findIdx? (·.identity = wr.identity) = none := by
        rw [findIdx?_eq_none_iff]
        intro w hw
        rw [Merged, map_append, nodup_append] at hm
        simpa using hm.2.2 w.identity (mem_map_of_mem hw) wr.identity (by simp)
      rw [mergeWrite, ho]
    rw [mergeWrites, foldl_cons, hn]
    have hs : es ++ wr :: ig = es ++ [wr] ++ ig := by simp
    rw [hs] at hm ⊢
    exact ih _ hm

structure Sound (s : CheckpointStore S V) : Prop where
  keyed : ∀ thread, ∀ c ∈ s.getThread thread, c.threadId = thread
  merged : ∀ key writes, s.writes.lookup key = some writes → Merged writes

theorem Sound.call (h : s.Sound) (c : Call S V) : (s.call c).Sound := by
  cases c with
  | put c =>
    refine ⟨?_, h.merged⟩
    intro th ot ho
    rw [CheckpointStore.call, getThread_put] at ho
    split_ifs at ho with ht
    · rcases mem_append.mp ho with ho | ho
      · exact h.keyed th ot ho
      · rw [mem_singleton.mp ho, ht]
    · exact h.keyed th ot ho
  | putWrites th ns id wt =>
    refine ⟨?_, ?_⟩
    · intro ot c hc
      rw [CheckpointStore.call, getThread_putWrites] at hc
      exact h.keyed ot c hc
    · intro key fo hf
      by_cases hw : wt = []
      · subst hw
        exact h.merged key fo hf
      · rw [CheckpointStore.call, lookup_putWrites _ _ _ _ hw] at hf
        split_ifs at hf with hk
        · cases hf
          apply Merged.mergeWrites
          cases hs : s.writes.lookup key with
          | none => exact nodup_nil
          | some st => exact h.merged key st hs
        · exact h.merged key fo hf
  | deleteThread th =>
    refine ⟨?_, ?_⟩
    · intro ot c hc
      rw [CheckpointStore.call, getThread_deleteThread] at hc
      split_ifs at hc
      · cases hc
      · exact h.keyed ot c hc
    · intro key fo hf
      simp only [CheckpointStore.call, CheckpointStore.deleteThread, HashMap.lookup_retain] at hf
      split_ifs at hf
      exact h.merged key fo hf
  | deleteCheckpoints th ids =>
    refine ⟨?_, fun key fo hf => h.merged key fo (lookup_deleteCheckpoints hf)⟩
    intro ot c hc
    rw [CheckpointStore.call, getThread_deleteCheckpoints] at hc
    split_ifs at hc with ho
    · exact ho ▸ h.keyed th c (mem_of_mem_filter hc)
    · exact h.keyed ot c hc

theorem sound_after (ca : List (Call S V)) : (after ca).Sound := by
  suffices ∀ s : CheckpointStore S V, s.Sound → (ca.foldl call s).Sound from
    this {} ⟨by simp [getThread], by simp⟩
  induction ca with
  | nil => exact fun s h => h
  | cons c ca ih => exact fun s h => ih _ (h.call c)

/-! ## Reads within a namespace -/

def newestIn (s : CheckpointStore S V) (thread : ThreadId) (ns : List String) :
    Option CheckpointId → Option (Checkpoint S V)
  | some id => (s.getThread thread).reverse.find? fun c => c.checkpointId = id ∧ c.ns = ns
  | none => (s.getThread thread).reverse.find? fun c => c.ns = ns

theorem getScoped_eq (s : CheckpointStore S V) (th id ns) :
    s.getScoped th id ns = (s.newestIn th ns id).bind fun c => s.get th (some c.checkpointId) := by
  cases id with
  | none => simp only [getScoped, newestIn]; split <;> simp only [*] <;> rfl
  | some id => simp only [getScoped, newestIn]; split <;> simp only [*] <;> rfl

theorem find?_of_imp {α : Type} {p q} {l : List α} {a} (h : l.find? p = some a)
    (ha : q a = true) (hi : ∀ x, q x = true → p x = true) : l.find? q = some a := by
  obtain ⟨-, before, rest, hs, hb⟩ := find?_eq_some_iff_append.mp h
  rw [hs, find?_append, find?_eq_none.mpr]
  · simp [ha]
  · intro x hx hq
    have hp := hb x hx
    rw [hi x hq] at hp
    cases hp

theorem newestIn_self {ns id c} (h : s.newestIn th ns id = some c) :
    c ∈ s.getThread th ∧ c.ns = ns ∧ s.newestIn th ns (some c.checkpointId) = some c := by
  have hm : c ∈ s.getThread th := by
    cases id <;> exact mem_reverse.mp (mem_of_find?_eq_some h)
  cases id with
  | some id =>
    have hf := find?_some h
    simp only [decide_eq_true_eq] at hf
    exact ⟨hm, hf.2, hf.1.symm ▸ h⟩
  | none =>
    have hn : c.ns = ns := by simpa using find?_some h
    exact ⟨hm, hn, find?_of_imp h (by simp [hn]) (by simp)⟩

def bare (id : CheckpointId) (parent : Option CheckpointId) (ns : List String) : Checkpoint Unit Unit where
  threadId := "t"
  checkpointId := id
  runId := none
  parentCheckpointId := parent
  ns
  state := ()
  nextNodes := []
  completedTasks := []
  pendingWrites := []
  interrupts := []
  pendingActivations := none
  barrierArrivals := []
  metadata := { source := "loop", step := 0 }

end Tinyflows.Graph.CheckpointStore
