import Tinyflows.Graph.Lemmas.Threads

/-!
# Imported and live writes

What a document holds under an identity, and whether that is marked as imported, depends on the writes
of this identity alone, and the writes are listed in the order in which their identities first
occurred. A batch comes to the same as its writes one by one, so an import that is begun again ends
where it would have ended.
-/

namespace Tinyflows.Graph
open Lib CheckpointStore PendingWrite List Option WritesBody PendingWrite Prod

variable {V : Type} {b c : WritesBody V} {cu : Option (WritesBody V)}
  {v w wt : PendingWrite V} {bt ic : List (PendingWrite V)} {id : TaskId × Int}
  {x : Option (PendingWrite V) × Bool} {ca : List (WritesCall V)} {call : WritesCall V}
  {p : Importing V}

theorem PendingWrite.isControlPlane_eq (h : v.identity = w.identity) :
    v.isControlPlane = w.isControlPlane := by
  have hi : v.idx = w.idx := congrArg snd h
  rw [isControlPlane, isControlPlane, hi]

/-! ## One write -/

def WritesBody.import (b : WritesBody V) (write : PendingWrite V) : WritesBody V where
  writes := place identity
    (write.isControlPlane && decide (write.identity ∈ b.importedControlWrites)) b.writes write
  importedControlWrites :=
    if write.isControlPlane && (held identity b.writes write.identity).isNone then
      insert write.identity b.importedControlWrites
    else b.importedControlWrites

def WritesBody.slot (b : WritesBody V) (id : TaskId × Int) : Option (PendingWrite V) × Bool :=
  (held identity b.writes id, decide (id ∈ b.importedControlWrites))

def importSlot (write : PendingWrite V) :
    Option (PendingWrite V) × Bool → Option (PendingWrite V) × Bool
  | (some stored, marked) => (some (if write.isControlPlane && marked then write else stored), marked)
  | (none, marked) => (some write, write.isControlPlane || marked)

theorem WritesBody.slot_import :
    (b.import wt).slot id = if wt.identity = id then importSlot wt (b.slot id) else b.slot id := by
  unfold slot
  rw [WritesBody.import, held_place]
  by_cases hi : wt.identity = id
  · subst hi
    cases hs : held identity b.writes wt.identity <;>
      cases hc : wt.isControlPlane <;> simp [importSlot, hc]
  · have hm : id ∈ insert wt.identity b.importedControlWrites ↔ id ∈ b.importedControlWrites := by
      simp [Ne.symm hi]
    rw [if_neg hi, if_neg hi]
    dsimp only
    split_ifs <;> simp [hm]

theorem importSlot_control (hc : w.isControlPlane = true) (h : v.identity = w.identity) :
    importSlot w (importSlot v x) = importSlot w x := by
  obtain ⟨_ | st, ma⟩ := x <;>
    cases ma <;> simp [importSlot, isControlPlane_eq h, hc]

theorem importSlot_data (hc : w.isControlPlane = false) :
    importSlot w (importSlot v x) = importSlot v x := by
  obtain ⟨_ | st, ma⟩ := x <;> simp [importSlot, hc]

/-! ## Several writes -/

def WritesBody.importAll (b : WritesBody V) (incoming : List (PendingWrite V)) :
    WritesBody V :=
  incoming.foldl WritesBody.import b

theorem WritesBody.importAll_append (fi second) :
    b.importAll (fi ++ second) = (b.importAll fi).importAll second :=
  foldl_append

/-- Under an identity an import comes to that of one write: what the batch merges to. -/
theorem WritesBody.slot_importAll :
    (b.importAll ic).slot id =
      (held identity (mergeWrites [] ic) id).elim (b.slot id) (importSlot · (b.slot id)) := by
  induction ic using List.reverseRecOn with
  | nil => rfl
  | append_singleton ic wt ih =>
    rw [importAll, foldl_concat, ← importAll, slot_import, mergeWrites, foldl_concat,
      ← mergeWrites, held_mergeWrite, ih]
    split_ifs with hi hc
    · cases hs : held identity (mergeWrites [] ic) id with
      | none => rfl
      | some v => exact importSlot_control hc ((key_of_held hs).trans hi.symm)
    · cases hs : held identity (mergeWrites [] ic) id with
      | none => rfl
      | some v => exact importSlot_data (by simpa using hc)
    · rfl

theorem WritesBody.identities_importAll :
    (b.importAll ic).writes.map (·.identity) =
      (ic.map (·.identity)).foldl pushKey (b.writes.map (·.identity)) := by
  induction ic generalizing b with
  | nil => rfl
  | cons wt ic ih =>
    rw [importAll, foldl_cons, ← importAll, ih, map_cons, foldl_cons]
    exact congrArg (List.foldl pushKey · _) (keys_place identity _ b.writes wt)

theorem WritesBody.merged_importAll (h : Merged b.writes) : Merged (b.importAll ic).writes := by
  rw [Merged, identities_importAll]
  exact nodup_foldl_pushKey h _

theorem WritesBody.ext_slots (h : Merged b.writes)
    (hk : b.writes.map (·.identity) = c.writes.map (·.identity)) (hs : ∀ id, b.slot id = c.slot id) :
    b = c := by
  obtain ⟨ws, ip⟩ := b
  obtain ⟨ws', ip'⟩ := c
  obtain rfl : ws = ws' := eq_of_held hk h fun id => (Prod.ext_iff.mp (hs id)).1
  obtain rfl : ip = ip' :=
    Finset.ext fun id => decide_eq_decide.mp (Prod.ext_iff.mp (hs id)).2
  rfl

theorem WritesBody.importAll_merged (h : Merged b.writes) :
    b.importAll (mergeWrites [] ic) = b.importAll ic := by
  refine ext_slots (merged_importAll h) ?_ fun id => ?_
  · rw [identities_importAll, identities_importAll, mergeWrites_identities]
    exact foldl_pushKey_foldl _ _
  · have hm : Merged (mergeWrites [] ic) :=
      Merged.mergeWrites (show Merged [] from nodup_nil) ic
    rw [slot_importAll, slot_importAll, mergeWrites_nil hm]

theorem WritesBody.importAll_twice (h : Merged b.writes) :
    (b.importAll ic).importAll ic = b.importAll ic := by
  refine ext_slots (merged_importAll (merged_importAll h)) ?_ fun id => ?_
  · rw [identities_importAll, identities_importAll]
    exact foldl_pushKey_of_subset fun id hi => mem_foldl_pushKey.mpr (.inr hi)
  · rw [slot_importAll, slot_importAll]
    cases held identity (mergeWrites [] ic) id with
    | none => rfl
    | some v =>
      change importSlot v (importSlot v _) = importSlot v _
      cases hc : v.isControlPlane with
      | false => exact importSlot_data hc
      | true => exact importSlot_control hc rfl

/-! ## A call -/

theorem groupWrite_writes (gr) : (groupWrite gr wt).map fst = mergeWrite (gr.map fst) wt := by
  have hf : (gr.map fst).findIdx? (·.identity = wt.identity) =
      gr.findIdx? (·.1.identity = wt.identity) := findIdx?_map
  unfold groupWrite mergeWrite
  rw [hf]
  cases hi : gr.findIdx? (·.1.identity = wt.identity) with
  | none => simp
  | some i =>
    refine ext_getElem? fun j => ?_
    dsimp only
    split_ifs with hc
    · by_cases hj : i = j <;> simp [getElem?_set, hj]
      grind
    · by_cases hj : i = j <;> simp [hj, Function.comp_def]

theorem groupWrite_counts {gr} (h : ∀ g ∈ gr, 0 < g.2) : ∀ g ∈ groupWrite gr wt, 0 < g.2 := by
  intro g hg
  unfold groupWrite at hg
  split at hg
  · obtain ⟨i, hi⟩ := mem_iff_getElem?.mp hg
    grind
  · grind

theorem groupWrites_writes : (ic.foldl groupWrite []).map fst = mergeWrites [] ic := by
  induction ic using List.reverseRecOn with
  | nil => rfl
  | append_singleton ic wt ih =>
    rw [foldl_concat, groupWrite_writes, ih, mergeWrites, mergeWrites, foldl_concat]

theorem groupWrites_counts : ∀ g ∈ ic.foldl groupWrite [], 0 < g.2 := by
  induction ic using List.reverseRecOn with
  | nil => simp
  | append_singleton ic wt ih =>
    rw [foldl_concat]
    exact groupWrite_counts ih

theorem putLiveWrites_merged (h : Merged (cu.getD {}).writes)
    (wr) : Merged ((putLiveWrites cu wr).getD {}).writes := by
  unfold putLiveWrites
  split_ifs
  · exact h
  · exact h.mergeWrites wr

variable [DecidableEq V]

theorem importGroup_body (g) : (importGroup p g).body = p.body.import g.1 := by
  obtain ⟨wt, co⟩ := g
  unfold importGroup WritesBody.import place
  cases hf : p.body.writes.findIdx? (·.identity = wt.identity) with
  | none =>
    have hn : held identity p.body.writes wt.identity = none := by
      simpa [held_eq_none, findIdx?_eq_none_iff] using hf
    cases hc : wt.isControlPlane <;> simp [hf, hn, hc]
  | some i =>
    obtain ⟨hi, hd, -⟩ := findIdx?_eq_some_iff_getElem.mp hf
    have hn : held identity p.body.writes wt.identity ≠ none := by
      refine fun hn => held_eq_none.mp hn (mem_map.mpr ⟨_, getElem_mem hi, ?_⟩)
      simpa using hd
    have hs : (p.body.writes[i]? = some wt) → p.body.writes.set i wt = p.body.writes := by
      intro he
      obtain ⟨-, rfl⟩ := List.getElem?_eq_some_iff.mp he
      exact set_getElem_self hi
    by_cases hc : wt.isControlPlane ∧ wt.identity ∈ p.body.importedControlWrites
    · by_cases he : p.body.writes[i]? = some wt <;> simp [hf, hn, hc, he, hs]
    · simp [hf, hn, hc]

/-- What is not counted as written leaves the document as it was. -/
theorem importGroup_written {g} (h : 0 < g.2) :
    p.written < (importGroup p g).written ∨
      (importGroup p g).written = p.written ∧ (importGroup p g).body = p.body := by
  obtain ⟨wt, co⟩ := g
  unfold importGroup
  dsimp only at h ⊢
  split <;> split_ifs <;> simp <;> omega

theorem foldl_importGroup {gr : List (PendingWrite V × Nat)} (h : ∀ g ∈ gr, 0 < g.2) :
    (gr.foldl importGroup p).body = p.body.importAll (gr.map fst) ∧
      (p.written < (gr.foldl importGroup p).written ∨
        (gr.foldl importGroup p).written = p.written ∧ (gr.foldl importGroup p).body = p.body) := by
  induction gr generalizing p with
  | nil => exact ⟨rfl, .inr ⟨rfl, rfl⟩⟩
  | cons g gr ih =>
    obtain ⟨hb, hw⟩ := ih fun g hg => h g (mem_cons_of_mem _ hg)
    rw [importGroup_body] at hb
    refine ⟨hb, ?_⟩
    rw [foldl_cons]
    rcases importGroup_written (h g mem_cons_self) with hg | ⟨hg, he⟩
    · exact .inl (hw.elim hg.trans fun hw => hw.1 ▸ hg)
    · rwa [hg, he] at hw

theorem importWrites_eq (h : Merged (cu.getD {}).writes) :
    (importWritesIfAbsent cu ic).1 =
      if ic = [] then cu else some ((cu.getD {}).importAll ic) := by
  unfold importWritesIfAbsent
  by_cases hi : ic = []
  · rw [hi]; rfl
  · rw [if_neg hi, if_neg (by simpa using hi)]
    obtain ⟨hb, hw⟩ := foldl_importGroup (p := { body := cu.getD {} }) (@groupWrites_counts _ ic)
    rw [groupWrites_writes, importAll_merged h] at hb
    dsimp only
    rcases hw with hw | ⟨hw, he⟩
    · rw [if_pos (Nat.zero_lt_of_lt hw), hb]
    · rw [hw, if_neg (Nat.lt_irrefl 0)]
      replace he : (cu.getD {}).importAll ic = cu.getD {} := hb ▸ he
      obtain ⟨wt, hm⟩ := exists_mem_of_ne_nil ic hi
      have hk : wt.identity ∈ (cu.getD {}).writes.map (·.identity) := by
        rw [← he, identities_importAll]
        exact mem_foldl_pushKey.mpr (.inr (mem_map_of_mem hm))
      cases cu with
      | none => simp at hk
      | some body => rw [he, getD_some]

theorem serve_merged (h : Merged (cu.getD {}).writes) :
    Merged ((call.serve cu).getD {}).writes := by
  cases call with
  | live wr => exact putLiveWrites_merged h wr
  | imports ic =>
    rw [WritesCall.serve, importWrites_eq h]
    split_ifs
    · exact h
    · exact merged_importAll h

theorem documentAfter_merged (ca : List (WritesCall V)) :
    Merged ((documentAfter ca).getD {}).writes := by
  induction ca using List.reverseRecOn with
  | nil => exact nodup_nil
  | append_singleton ca call ih =>
    rw [documentAfter, foldl_concat]
    exact serve_merged ih

theorem foldl_imports (h : Merged (cu.getD {}).writes) (ba : List (List (PendingWrite V))) :
    (ba.map .imports).foldl WritesCall.serve cu =
      if ba.flatten = [] then cu
      else some ((cu.getD {}).importAll ba.flatten) := by
  induction ba generalizing cu with
  | nil => rfl
  | cons bt ba ih =>
    rw [map_cons, foldl_cons, ih (serve_merged h), WritesCall.serve, importWrites_eq h, flatten_cons]
    rcases eq_or_ne bt [] with rfl | hb
    · rfl
    · have hn : ¬bt ++ ba.flatten = [] := fun he => hb (append_eq_nil_iff.mp he).1
      rw [if_neg hb, if_neg hn, getD_some, importAll_append]
      split_ifs with hf
      · rw [hf]; rfl
      · rfl

/-! ## Any calls -/

/-- A live write of a control-plane identity has taken the mark away. -/
def Owned (document : Option (WritesBody V)) (id : TaskId × Int) : Prop :=
  ((document.getD {}).slot id).1.isSome ∧ ((document.getD {}).slot id).2 = false

omit [DecidableEq V] in
theorem storedWrite_eq (dc : Option (WritesBody V)) : storedWrite dc id = ((dc.getD {}).slot id).1 := by
  cases dc <;> rfl

theorem slot_imports :
    ((documentAfter (ca ++ [.imports ic])).getD {}).slot id =
      (held identity (mergeWrites [] ic) id).elim (((documentAfter ca).getD {}).slot id)
        (importSlot · (((documentAfter ca).getD {}).slot id)) := by
  have hs : documentAfter (ca ++ [.imports ic]) =
      (importWritesIfAbsent (documentAfter ca) ic).1 := by
    rw [documentAfter, foldl_concat]; rfl
  rw [hs, importWrites_eq (documentAfter_merged ca)]
  split_ifs with hi
  · rw [hi]; rfl
  · rw [getD_some, slot_importAll]

theorem documentAfter_live (ca) (h : bt ≠ []) :
    ∃ ac : PendingWrite V → Bool, (∀ w, w.isControlPlane = true → ac w = true) ∧
      documentAfter (ca ++ [.live bt]) = some
        { writes := mergeWrites ((documentAfter ca).getD {}).writes bt
          importedControlWrites := bt.foldl (fun im w => if ac w then im.erase w.identity else im)
            ((documentAfter ca).getD {}).importedControlWrites } := by
  rw [documentAfter, foldl_concat, WritesCall.serve, putLiveWrites, if_neg (by simpa using h)]
  exact ⟨_, fun w hw => by rw [hw]; rfl, rfl⟩

omit [DecidableEq V] in
theorem mem_foldl_erase (ac : PendingWrite V → Bool) (im : Finset (TaskId × Int)) :
    id ∈ bt.foldl (fun im w => if ac w then im.erase w.identity else im) im ↔
      id ∈ im ∧ ∀ w ∈ bt, ac w = true → w.identity ≠ id := by
  induction bt generalizing im with
  | nil => simp
  | cons w bt ih =>
    rw [foldl_cons, ih]
    cases ha : ac w with
    | false => simp [ha]
    | true =>
      simp only [ha, if_true, Finset.mem_erase, forall_mem_cons, forall_const]
      exact ⟨fun ⟨⟨hn, hm⟩, hr⟩ => ⟨hm, hn.symm, hr⟩, fun ⟨hm, hn, hr⟩ => ⟨⟨hn.symm, hm⟩, hr⟩⟩

theorem owned_live (ca) (hw : w ∈ bt) (hc : w.isControlPlane = true) :
    Owned (documentAfter (ca ++ [.live bt])) w.identity := by
  obtain ⟨ac, ha, hd⟩ := documentAfter_live ca (ne_nil_of_mem hw)
  rw [hd]
  exact ⟨isSome_held_mergeWrites (.inr (mem_map_of_mem hw)),
    decide_eq_false fun hm => (mem_foldl_erase ..).mp hm |>.2 w hw (ha w hc) rfl⟩

theorem Owned.slot_imports (h : Owned (documentAfter ca) id) :
    ((documentAfter (ca ++ [.imports ic])).getD {}).slot id =
      ((documentAfter ca).getD {}).slot id := by
  rw [Graph.slot_imports]
  obtain ⟨hs, hm⟩ := h
  cases held identity (mergeWrites [] ic) id with
  | none => rfl
  | some w =>
    generalize ((documentAfter ca).getD {}).slot id = x at hs hm
    obtain ⟨_ | st, ma⟩ := x
    · simp at hs
    · change ma = false at hm
      simp [importSlot, hm]

theorem Owned.append (h : Owned (documentAfter ca) id) :
    Owned (documentAfter (ca ++ [call])) id := by
  cases call with
  | imports ic =>
    rw [Owned, h.slot_imports]
    exact h
  | live bt =>
    rcases eq_or_ne bt [] with rfl | hb
    · rw [documentAfter, foldl_concat]
      exact h
    · obtain ⟨ac, -, hd⟩ := documentAfter_live ca hb
      obtain ⟨hs, hm⟩ := h
      rw [hd]
      refine ⟨isSome_held_mergeWrites (.inl (not_not.mp fun hk => ?_)),
        decide_eq_false fun hi => of_decide_eq_false hm ((mem_foldl_erase ..).mp hi).1⟩
      exact isSome_iff_ne_none.mp hs (held_eq_none.mpr hk)

theorem Owned.appends (h : Owned (documentAfter ca) id)
    (more) : Owned (documentAfter (ca ++ more)) id := by
  induction more using List.reverseRecOn with
  | nil => rwa [append_nil]
  | append_singleton more call ih => rw [← append_assoc]; exact ih.append

theorem storedWrite_data (hd : 0 ≤ id.2) (h : storedWrite (documentAfter ca) id = some w) :
    storedWrite (documentAfter (ca ++ [call])) id = some w := by
  rw [storedWrite_eq] at h ⊢
  cases call with
  | imports ic =>
    rw [slot_imports]
    cases hm : held identity (mergeWrites [] ic) id with
    | none => exact h
    | some v =>
      have hv : v.isControlPlane = false := by
        simpa [← key_of_held hm, isControlPlane, identity] using hd
      generalize ((documentAfter ca).getD {}).slot id = x at h
      obtain ⟨_ | st, ma⟩ := x
      · simp at h
      · simpa [importSlot, hv] using h
  | live bt =>
    rcases eq_or_ne bt [] with rfl | hb
    · rw [documentAfter, foldl_concat]
      exact h
    · obtain ⟨ac, -, he⟩ := documentAfter_live ca hb
      rw [he, getD_some]
      change held _ _ _ = _ at h ⊢
      rw [held_mergeWrites_data hd, h, some_or]

theorem storedWrite_live (hw : w ∈ bt) (hc : w.isControlPlane = true) :
    storedWrite (documentAfter (ca ++ [.live bt])) w.identity =
      bt.reverse.find? (·.identity = w.identity) := by
  obtain ⟨ac, -, hd⟩ := documentAfter_live ca (ne_nil_of_mem hw)
  rw [storedWrite_eq, hd, getD_some]
  change held _ _ _ = _
  rw [held_mergeWrites_control (by simpa [isControlPlane, identity] using hc)]
  refine or_of_isSome (find?_isSome.mpr ⟨w, mem_reverse.mpr hw, ?_⟩)
  exact decide_eq_true rfl

/-- For any calls: no import changes the value under a control-plane identity once a live run has
written it; a data write keeps the first value stored; and an import that is broken off after any of
its writes and begun again, in whatever batches, leaves the document that it leaves in one go. -/
theorem import_provenance (before : List (WritesCall V)) :
    (∀ batch, ∀ w ∈ batch, w.isControlPlane = true →
      storedWrite (documentAfter (before ++ [.live batch])) w.identity =
        batch.reverse.find? (·.identity = w.identity) ∧
      ∀ between incoming,
        storedWrite (documentAfter (before ++ [.live batch] ++ between ++ [.imports incoming]))
          w.identity =
        storedWrite (documentAfter (before ++ [.live batch] ++ between)) w.identity) ∧
    (∀ id w, 0 ≤ id.2 → storedWrite (documentAfter before) id = some w →
      ∀ later, storedWrite (documentAfter (before ++ later)) id = some w) ∧
    ∀ part whole again : List (List (PendingWrite V)), part.flatten <+: whole.flatten →
      again.flatten = whole.flatten →
      documentAfter (before ++ part.map .imports ++ again.map .imports) =
        documentAfter (before ++ whole.map .imports) := by
  refine ⟨fun batch w hw hc => ⟨storedWrite_live hw hc, fun between incoming => ?_⟩,
    fun id w hd h later => ?_, fun part whole again hp ha => ?_⟩
  · rw [storedWrite_eq, storedWrite_eq, ((owned_live before hw hc).appends between).slot_imports]
  · induction later using List.reverseRecOn with
    | nil => rwa [append_nil]
    | append_singleton later call ih =>
      rw [← append_assoc]
      exact storedWrite_data hd ih
  · have hm := documentAfter_merged before
    have hd (calls more : List (WritesCall V)) :
        documentAfter (calls ++ more) = more.foldl WritesCall.serve (documentAfter calls) :=
      foldl_append
    rw [hd _ (again.map _), foldl_imports (documentAfter_merged _), hd _ (part.map _), hd _ (whole.map _),
      foldl_imports hm, foldl_imports hm, ha]
    obtain ⟨rest, hr⟩ := hp
    rw [← hr]
    split_ifs with hw hf hf
    · rfl
    · exact absurd (append_eq_nil_iff.mp hw).1 hf
    · rfl
    · rw [getD_some, importAll_append, importAll_append,
        importAll_twice hm]

def interruptWrite (payload : Nat) : PendingWrite Nat :=
  { node := "n", taskId := "t", idx := -3, channel := "n", payload }

theorem interrupt_imports_kept :
    storedWrite (documentAfter ([.imports [interruptWrite 0]] ++ [.live [interruptWrite 1]] ++ [] ++
      [.imports [interruptWrite 2]])) ("t", -3) = some (interruptWrite 1) ∧
    storedWrite (documentAfter ([.imports [.completionMarker "n" "t"]] ++
      [.live [completionMarker "m" "t"]])) ("t", 0) =
        some (completionMarker "n" "t" : PendingWrite Nat) ∧
    documentAfter ([] ++ [[interruptWrite 0]].map .imports ++
        [[interruptWrite 0], [interruptWrite 1]].map .imports) =
      documentAfter ([] ++ [[interruptWrite 0, interruptWrite 1]].map .imports) :=
  ⟨((import_provenance [.imports [interruptWrite 0]]).1 [interruptWrite 1] (interruptWrite 1)
      (by decide) (by decide)).2 [] [interruptWrite 2],
    (import_provenance [.imports [.completionMarker "n" "t"]]).2.1 ("t", 0) _ (by decide) rfl _,
    (import_provenance []).2.2 _ _ _ ⟨[interruptWrite 1], rfl⟩ rfl⟩

/-! ## Ledgers -/

omit [DecidableEq V] in
/-- Whatever batches a ledger is merged from, it has one write for each identity: the first of its data
writes, the last of its control-plane writes. A batch that is merged again changes nothing. -/
theorem mergeWrites_sequence (batches : List (List (PendingWrite V))) (batch : List (PendingWrite V)) :
    let ledger := batches.foldl mergeWrites []
    (ledger.map identity).Nodup ∧
    (∀ id, held identity ledger id = if 0 ≤ id.2 then batches.flatten.find? (·.identity = id)
      else batches.flatten.reverse.find? (·.identity = id)) ∧
    mergeWrites (mergeWrites ledger batch) batch = mergeWrites ledger batch := by
  intro ledger
  have hl : ledger = mergeWrites [] batches.flatten := foldl_flatten.symm
  have hm : Merged ledger := hl ▸ Merged.mergeWrites (show Merged [] from nodup_nil) _
  refine ⟨hm, fun id => ?_, mergeWrites_again hm batch⟩
  rw [hl]
  split_ifs with hd
  · rw [held_mergeWrites_data hd]
    rfl
  · rw [held_mergeWrites_control (by omega)]
    exact or_none

end Tinyflows.Graph
