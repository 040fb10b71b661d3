import Tinyflows.Adaptive.Ledger

/-!
# Tenants keep to their own records

A record belongs to the tenant whose bucket it carries. Every change made through a handle is to a
record of its own bucket, a new one, or a lesson it can see whose bucket stays.
-/

namespace Tinyflows.Adaptive.Ledger
open Lib Storage List Json

variable {b : String} {i : Nat} {s t : LedgerStore} {k : LedgerKey} {doc : Json} {pre : Precondition}

def scope (doc : Json) : String := text doc "scope_key"

def LedgerKey.bucket : LedgerKey → Option String
  | .score b _ | .variant b _ | .episode b _ | .step b _ _ => some b
  | .row _ | .lesson _ | .evidence _ _ => none

@[simp] theorem scope_tagged (fields) : scope (tagged b fields) = b := by
  simp [scope, text, tagged, asStr]

theorem scope_counted (helped : Bool) : scope (counted helped doc) = scope doc := by
  simp only [scope, text, counted, get_obj]
  rw [lookup_insertFields_of_notMem (by simp)]
  rfl

theorem scope_of_within {r} (h : within b r = true) : scope r.2 = b := by
  simp only [within, is, decide_eq_true_eq] at h
  simp [scope, text, h, asStr]

theorem scope_of_visible {r} (h : visible b r = true) : scope r.2 = b ∨ scope r.2 = "" :=
  (Bool.or_eq_true _ _ ▸ h).imp scope_of_within scope_of_within

/-! ## What an operation may do -/

structure Fits (b : String) (s : LedgerStore) (k : LedgerKey) (doc : Json) : Prop where
  keyed : ∀ b', k.bucket = some b' → b' = b
  own : k.collection ≠ .evidence → s.docs.lookup k = none ∨ k.bucket ≠ none → scope doc = b
  edge : k.collection = .evidence → scope doc = "" ∧ s.docs.lookup k = none
  kept : ∀ v, k.bucket = none → s.docs.lookup k = some v →
    scope doc = scope v.doc ∧ (scope v.doc = b ∨ scope v.doc = "")

inductive Change (b : String) (i : Nat) (s : LedgerStore) : LedgerStore → Prop
  | idle : Change b i s s
  | drew : Change b i s { s with issued := s.issued ++ [i] }
  | put {k : LedgerKey} {doc : Json} {pre : Precondition} (h : Fits b s k doc) :
      Change b i s (s.commit i [.put k doc pre] (some (b, k)))
  | cleared {ops : List (WriteOp LedgerDocs)} (h : ∀ op ∈ ops, op.key.bucket = some b ∧
      ∀ k doc pre, op ≠ .put k doc pre) : Change b i s (s.commit i ops none)

/-- A record was first written through a handle of its bucket, and only through such a handle unless
the bucket is the global one. -/
structure Inv (s : LedgerStore) : Prop where
  tagged : ∀ {k v}, s.docs.lookup k = some v → k.collection ≠ .evidence →
    (∃ j, (j, (scope v.doc, k)) ∈ s.log) ∧ ∀ b, k.bucket = some b → scope v.doc = b
  keyed : ∀ {j b k}, (j, (b, k)) ∈ s.log → ∀ b', k.bucket = some b' → b = b'
  stays : ∀ {j b k}, (j, (b, k)) ∈ s.log → k.bucket = none →
    ∃ v, s.docs.lookup k = some v ∧ (scope v.doc = b ∨ scope v.doc = "")

/-- The log grows, and what is not kept under a bucket stays in its own. -/
structure Keeps (s t : LedgerStore) : Prop where
  log : s.log ⊆ t.log
  stays : ∀ {k v}, k.bucket = none → s.docs.lookup k = some v →
    ∃ w, t.docs.lookup k = some w ∧ scope w.doc = scope v.doc

theorem lookup_put (k') : (s.commit i [.put k doc pre] (some (b, k))).docs.lookup k' =
    if k' = k then some ⟨s.docs.nextVersion k, doc⟩ else s.docs.lookup k' := by
  split_ifs with h
  · subst h
    exact AList.lookup_insert _
  · exact AList.lookup_insert_ne h

theorem lookup_cleared {ops : List (WriteOp LedgerDocs)} (h : ∀ op ∈ ops, op.key.bucket = some b ∧
    ∀ k doc pre, op ≠ .put k doc pre) :
    (ops.foldl WriteOp.apply s.docs).lookup k = s.docs.lookup k ∨
      k.bucket = some b ∧ (ops.foldl WriteOp.apply s.docs).lookup k = none := by
  by_cases hk : ∀ op ∈ ops, op.key ≠ k
  · exact .inl (lookup_foldl_apply hk)
  · push Not at hk
    obtain ⟨op, hm, rfl⟩ := hk
    cases hl : (ops.foldl WriteOp.apply s.docs).lookup op.key with
    | none => exact .inr ⟨(h op hm).1, rfl⟩
    | some v =>
      rcases lookup_foldl_apply_some hl with he | ⟨pre, hp⟩
      · exact .inl he.symm
      · exact absurd rfl ((h _ hp).2 _ _ _)

theorem Change.keeps (h : Change b i s t) : Keeps s t := by
  cases h with
  | idle => exact ⟨fun _ h => h, fun _ hv => ⟨_, hv, rfl⟩⟩
  | drew => exact ⟨fun _ h => h, fun _ hv => ⟨_, hv, rfl⟩⟩
  | @put k doc pre h =>
    refine ⟨subset_append_left .., fun {k' v} hk hv => ?_⟩
    rw [lookup_put]
    split_ifs with he
    · subst he
      exact ⟨_, rfl, (h.kept v hk hv).1⟩
    · exact ⟨v, hv, rfl⟩
  | cleared h =>
    refine ⟨subset_append_left .., fun {k v} hk hv => ?_⟩
    rcases lookup_cleared (s := s) (k := k) h with he | ⟨hb, -⟩
    · exact ⟨v, he.trans hv, rfl⟩
    · rw [hk] at hb
      cases hb

theorem LedgerKey.not_edge (h : k.bucket = some b) : k.collection ≠ .evidence := by
  intro he
  cases k <;> first | cases h; done | cases he

theorem Inv.own (hs : Inv s) {v : Versioned Json} (hv : s.docs.lookup k = some v)
    (hb : k.bucket = some b) : scope v.doc = b :=
  (hs.tagged hv (k.not_edge hb)).2 b hb

theorem Change.inv (h : Change b i s t) (hs : Inv s) : Inv t := by
  have hk := h.keeps
  -- what was written before stays where it was
  have hold {j b' k'} (hm : (j, (b', k')) ∈ s.log) (hn : k'.bucket = none) :
      ∃ v, t.docs.lookup k' = some v ∧ (scope v.doc = b' ∨ scope v.doc = "") := by
    obtain ⟨v, hv, ho⟩ := hs.stays hm hn
    obtain ⟨w, hw, he⟩ := hk.stays hn hv
    exact ⟨w, hw, he ▸ ho⟩
  cases h with
  | idle => exact hs
  | drew => exact ⟨hs.tagged, hs.keyed, hs.stays⟩
  | @put k doc pre h =>
    refine ⟨fun {k' v} hv he => ?_, fun {j b' k'} hm => ?_, fun {j b' k'} hm hn => ?_⟩
    · rw [lookup_put] at hv
      split_ifs at hv with hkk
      · subst hkk
        cases hv
        by_cases hn : s.docs.lookup k' = none ∨ k'.bucket ≠ none
        · rw [h.own he hn]
          exact ⟨⟨i, mem_append_right _ (mem_singleton_self _)⟩, fun b' hb => (h.keyed b' hb).symm⟩
        · push Not at hn
          obtain ⟨v, hv⟩ := Option.ne_none_iff_exists'.mp hn.1
          rw [(h.kept v hn.2 hv).1]
          obtain ⟨⟨j, hj⟩, ht⟩ := hs.tagged hv he
          exact ⟨⟨j, mem_append_left _ hj⟩, ht⟩
      · obtain ⟨⟨j, hj⟩, ht⟩ := hs.tagged hv he
        exact ⟨⟨j, mem_append_left _ hj⟩, ht⟩
    · rcases mem_append.mp hm with hm | hm
      · exact hs.keyed hm
      · cases mem_singleton.mp hm
        exact fun b' hb => (h.keyed b' hb).symm
    · rcases mem_append.mp hm with hm | hm
      · exact hold hm hn
      · cases mem_singleton.mp hm
        refine ⟨_, (lookup_put k).trans (if_pos rfl), ?_⟩
        by_cases he : k.collection = .evidence
        · exact .inr (h.edge he).1
        · cases hl : s.docs.lookup k with
          | none => exact .inl (h.own he (.inl hl))
          | some v => exact (h.kept v hn hl).1 ▸ (h.kept v hn hl).2
  | @cleared ops h =>
    have hlog : (s.commit i ops none).log = s.log := append_nil _
    refine ⟨fun {k v} hv he => ?_, fun hm => hs.keyed (hlog ▸ hm), fun hm => hold (hlog ▸ hm)⟩
    rcases lookup_cleared (s := s) (k := k) h with hl | ⟨-, hl⟩
    · rw [hlog]
      exact hs.tagged (hl.symm.trans hv) he
    · cases hl.symm.trans hv

theorem Change.untouched (h : Change b i s t) (hs : Inv s) {v : Versioned Json}
    (hv : s.docs.lookup k = some v) (hb : scope v.doc ≠ b) (hg : scope v.doc ≠ "") :
    t.docs.lookup k = some v := by
  cases h with
  | idle => exact hv
  | drew => exact hv
  | @put k' doc pre h =>
    rw [lookup_put, if_neg, hv]
    rintro rfl
    cases hk : k.bucket with
    | none => exact (h.kept v hk hv).2.elim hb hg
    | some b' => exact hb ((hs.own hv hk).trans (h.keyed b' hk))
  | cleared h =>
    rcases lookup_cleared (s := s) (k := k) h with hl | ⟨hk, -⟩
    · exact hl.trans hv
    · exact absurd (hs.own hv hk) hb

/-! ## The operations -/

/-- What a handle is given of a record: it can see the record, which was written through a handle of the
bucket it belongs to. -/
structure Shown (b : String) (s : LedgerStore) (r : Record) : Prop where
  visible : scope r.2 = b ∨ scope r.2 = ""
  written : ∃ j, (j, (scope r.2, r.1)) ∈ s.log
  stays : r.1.bucket = none → ∃ v, s.docs.lookup r.1 = some v ∧ scope v.doc = scope r.2

def terms (b : String) (i : Nat) : Terms LedgerStore LedgerCall Lib.Call.Reply where
  serves := Store.Serves i
  inv := Inv
  rely := Keeps
  guarantee := Change b i

/-- The program keeps to the terms of a handle of bucket `b`. -/
abbrev Holds {α : Type} (b : String) (i : Nat) (x : Access α) (Q : LedgerStore → α → Prop) : Prop :=
  Ensures (terms b i) (fun _ => True) x Q fun _ => True

theorem onDocuments : OnDocuments i (terms b i) := ⟨fun h => h, fun _ => .idle⟩

theorem Holds.then {α β x f} {Q : LedgerStore → α → Prop}
    {Q' : LedgerStore → β → Prop} (h : Holds b i x Q) (hf : ∀ a, Holds b i (f a) Q') :
    Holds b i (x >>= f) Q' :=
  Ensures.bind h fun a => (hf a).pre fun _ _ _ => trivial

theorem holds_unit : Holds b i (pure {} : Access Answer) fun s a => ∀ r ∈ a.records, Shown b s r :=
  .pure fun _ _ _ => nofun

theorem holds_write {ops note}
    (h : ∀ s, Inv s → ops.all (·.admitted s.docs) → Change b i s (s.commit i ops note)) :
    Holds b i (.mk (Transaction.write ops note)) fun _ _ => True := by
  rintro s - - t ht - r u hu
  obtain ⟨ho, rfl, rfl⟩ | ⟨-, rfl, rfl⟩ | ⟨m, rfl, rfl⟩ := hu
  · exact ⟨h t ht ho, (h t ht ho).inv ht, trivial⟩
  · exact ⟨.idle, ht, trivial⟩
  · exact ⟨.idle, ht, trivial⟩

theorem holds_put (h : ∀ s, pre.holds (s.docs.lookup k) = true → Fits b s k doc) :
    Holds b i (put b k doc pre) fun _ _ => True :=
  holds_write fun s _ ho => .put (h s (by simpa [WriteOp.admitted] using ho))

theorem holds_insertOnce (h : ∀ s, s.docs.lookup k = none → Fits b s k doc) :
    Holds b i (insertOnce b k doc) fun _ _ => True := by
  refine .tryCatch (holds_put fun s hs => h s (Option.isNone_iff_eq_none.mp hs)) fun e => ?_
  split_ifs
  · exact .pure fun _ _ _ => trivial
  · exact .throw fun _ _ _ => trivial

theorem fits_new (hb : k.bucket = none) (he : k.collection ≠ .evidence) (hd : scope doc = b)
    (hn : s.docs.lookup k = none) : Fits b s k doc where
  keyed b' h := by rw [hb] at h; cases h
  own _ _ := hd
  edge h := absurd h he
  kept v _ hv := by rw [hn] at hv; cases hv

theorem fits_own (hb : k.bucket = some b) (hd : scope doc = b) : Fits b s k doc where
  keyed b' h := Option.some.inj (h.symm.trans hb)
  own _ _ := hd
  edge h := absurd h (k.not_edge hb)
  kept v h := by rw [hb] at h; cases h

theorem fits_edge {id rowId} (hn : s.docs.lookup (.evidence id rowId) = none) :
    Fits b s (.evidence id rowId) (.object [("lesson_id", .str id), ("row_id", .str rowId)]) where
  keyed _ h := by cases h
  own h := absurd rfl h
  edge _ := ⟨by simp [scope, text, get_object, lookup_cons_eq], hn⟩
  kept v _ hv := by rw [hn] at hv; cases hv

/-- A lesson the handle has seen keeps its bucket. -/
theorem fits_kept {id} {v : Versioned Json} (hr : Keeps s t)
    (hv : s.docs.lookup (.lesson id) = some v) (hd : scope doc = scope v.doc)
    (hb : scope v.doc = b ∨ scope v.doc = "") : Fits b t (.lesson id) doc := by
  obtain ⟨w, hw, he⟩ := hr.stays rfl hv
  refine ⟨fun _ h => (by cases h), fun _ h => ?_, fun h => (by cases h), fun w' _ hw' => ?_⟩
  · rcases h with h | h
    · cases h.symm.trans hw
    · exact absurd rfl h
  · cases hw.symm.trans hw'
    rw [hd, he]
    exact ⟨rfl, hb⟩

theorem holds_swap {f}
    (h : ∀ s t doc, Inv s → Keeps s t → f ((s.docs.lookup k).map (·.doc)) = some doc → Fits b t k doc) :
    Holds b i (swap b k f) fun _ _ => True := by
  have hu : Repo.Updates (D := LedgerDocs) i (terms b i) (fun _ => True) k (fun _ => some (b, k))
      (fun (_ : Unit) doc => (.ok (f doc), ())) fun _ _ => True := by
    refine ⟨fun _ _ _ => trivial, fun _ _ => trivial, fun _ _ _ => trivial, ?_⟩
    intro s t _ _ body pre hs _ ht _ hr hf _ _
    have hc : Change b i t (t.commit i [.put k body pre] (some (b, k))) :=
      .put (h s t body hs hr (Except.ok.inj (Prod.mk.inj hf).1))
    exact ⟨hc, hc.inv ht, trivial⟩
  refine Holds.then (.lift fun s _ _ => hu.loop onDocuments trivial (CAS_ATTEMPTS - 1) ()) fun r => ?_
  refine Holds.then (Q := fun _ _ => True) ?_ fun _ => .pure fun _ _ _ => trivial
  rintro s - -
  cases r.1 <;> trivial

theorem shown_of_lookup (hs : Inv s) {v : Versioned Json} (hv : s.docs.lookup k = some v)
    (he : k.collection ≠ .evidence) (hb : scope v.doc = b ∨ scope v.doc = "") : Shown b s (k, v.doc) :=
  ⟨hb, (hs.tagged hv he).1, fun _ => ⟨v, hv, rfl⟩⟩

theorem holds_get (hb : k.bucket = some b) :
    Holds b i (get k) fun s found => ∀ r ∈ found.toList, Shown b s r := by
  refine Ensures.bind (Q := fun s found => found = s.docs.lookup k) ?_ fun found =>
    .pure fun s hs hf r hr => ?_
  · rintro s - - t ht - r u ⟨rfl, rfl | ⟨m, rfl⟩⟩
    · exact ⟨.idle, ht, rfl⟩
    · exact ⟨.idle, ht, trivial⟩
  · simp only [Option.mem_toList, Option.map_eq_some_iff] at hr
    obtain ⟨v, hv, rfl⟩ := hr
    rw [hf] at hv
    exact shown_of_lookup hs hv (k.not_edge hb) (.inl (hs.own hv hb))

section Listing

variable {c : Collection} {p : Record → Bool} {le : Record → Record → Bool}

theorem holds_all : Holds b i (all c p le) fun s l => ∀ r ∈ l, p r = true ∧ r.1.collection = c ∧
    ∃ v, s.docs.lookup r.1 = some v ∧ r = (r.1, v.doc) := by
  refine Ensures.bind (Q := fun s found => found = s.docs.entries.filter (·.1.collection = c)) ?_
    fun found => .pure fun s _ hf r hr => ?_
  · rintro s - - t ht - r u ⟨rfl, rfl | ⟨m, rfl⟩⟩
    · exact ⟨.idle, ht, rfl⟩
    · exact ⟨.idle, ht, trivial⟩
  · rw [mem_mergeSort, mem_filter, mem_map] at hr
    obtain ⟨⟨⟨k, v⟩, he, rfl⟩, hp⟩ := hr
    rw [hf, mem_filter] at he
    exact ⟨hp, of_decide_eq_true he.2, v, AList.mem_lookup_iff.mpr he.1, rfl⟩

theorem holds_records (hc : c ≠ .evidence) (hp : ∀ r, p r = true → scope r.2 = b ∨ scope r.2 = "")
    {f : List Record → List Record} (hf : ∀ l, f l ⊆ l) :
    Holds b i (all c p le >>= fun l => pure ({ records := f l } : Answer))
      fun s a => ∀ r ∈ a.records, Shown b s r := by
  refine Ensures.bind holds_all fun l => .pure fun s hs hl r hr => ?_
  obtain ⟨h, rfl, v, hv, he⟩ := hl r (hf l hr)
  rw [he] at h ⊢
  exact shown_of_lookup hs hv hc (hp _ h)

theorem holds_deleteWhere (hp : ∀ r, p r = true → scope r.2 = b) :
    Holds b i (deleteWhere .steps p) fun _ _ => True := by
  refine Ensures.bind holds_all fun found => .fact (P := ∀ r ∈ found, r.1.bucket = some b)
    (fun s hs hl r hr => ?_) fun hf => Ensures.pre (holds_write fun s _ _ => .cleared ?_)
    fun _ _ _ => trivial
  · obtain ⟨h, hc, v, hv, he⟩ := hl r hr
    obtain ⟨b', hb⟩ : ∃ b', r.1.bucket = some b' := by
      cases hk : r.1 <;> rw [hk] at hc <;> first | exact ⟨_, rfl⟩ | cases hc
    rw [hb, ← hp _ h, he]
    exact congrArg some (hs.own hv hb).symm
  · intro op ho
    obtain ⟨r, hr, rfl⟩ := mem_map.mp ho
    exact ⟨hf r hr, nofun⟩

end Listing

theorem and_left {a c} (h : (a && c) = true) : a = true := by
  cases a
  · cases h
  · rfl

theorem perform_holds (op : LedgerOp) :
    Holds b i (perform b op) fun s a => ∀ r ∈ a.records, Shown b s r := by
  have hseq : Holds b i nextSeq fun _ _ => True := .lift fun s _ _ t ht _ r u hu => by
    have hc : Change b i t { t with issued := t.issued ++ [i] } := .drew
    exact hu.2 ▸ ⟨hc, hc.inv ht, trivial⟩
  cases op with
  | append row =>
    refine hseq.then fun seq => (holds_put fun s hs => ?_).then fun _ => .pure fun _ _ _ => nofun
    exact fits_new rfl nofun (scope_tagged _) (Option.isNone_iff_eq_none.mp hs)
  | promote lesson cites =>
    refine hseq.then fun seq => Holds.then (Q := fun _ _ => True) ?_ fun _ =>
      (holds_put fun s hs => ?_).then fun _ => .pure fun _ _ _ => nofun
    · exact Ensures.forM (fun rowId => holds_insertOnce fun s hs => fits_edge hs) cites
    · exact fits_new rfl nofun (scope_tagged _) (Option.isNone_iff_eq_none.mp hs)
  | rows episode =>
    exact holds_records (by decide) (fun r h => .inl (scope_of_within (and_left h))) fun _ _ h => h
  | lessons kind =>
    exact holds_records (by decide) (fun r h => scope_of_visible (and_left h)) fun _ _ h => h
  | evidence lessonId =>
    refine holds_all.then fun edges => ?_
    dsimp only
    split
    · exact holds_unit
    · exact holds_records (by decide) (fun r h => scope_of_visible (and_left h)) fun _ _ h => h
  | scoreLesson id helped =>
    refine (holds_swap fun s t doc hs hr hf => ?_).then fun _ => holds_unit
    cases hv : s.docs.lookup (.lesson id) with
    | none => rw [hv] at hf; cases hf
    | some v =>
      rw [hv] at hf
      simp only [Option.map_some, Option.ite_none_right_eq_some, Option.some.injEq] at hf
      obtain ⟨hb, rfl⟩ := hf
      refine fits_kept hr hv (scope_counted helped) (Or.symm ?_)
      simpa [scope] using hb
  | scoreWorkflow id helped =>
    refine (holds_swap fun s t doc hs hr hf => fits_own rfl ?_).then fun _ => holds_unit
    cases hv : s.docs.lookup (.score b id) with
    | none =>
      rw [hv] at hf
      cases hf
      rw [scope_counted, scope_tagged]
    | some v =>
      rw [hv] at hf
      cases hf
      rw [scope_counted]
      exact hs.own hv rfl
  | workflowScore id => exact (holds_get rfl).bind fun _ => .pure fun _ _ h => h
  | linkVariant parent variant =>
    exact (holds_insertOnce fun s _ => fits_own rfl (scope_tagged _)).then fun _ => holds_unit
  | parentOf id =>
    refine (holds_get rfl).bind fun found => .pure fun _ _ h r hr => h r ?_
    exact Option.mem_toList.mpr (Option.mem_filter_iff.mp (Option.mem_toList.mp hr)).1
  | childrenOf id =>
    exact holds_records (by decide) (fun r h => .inl (scope_of_within (and_left h))) fun _ _ h => h
  | saveEpisode id episode =>
    refine (holds_swap fun s t doc hs hr hf => fits_own rfl ?_).then fun _ => holds_unit
    rw [← Option.some.inj hf]
    exact scope_tagged _
  | episode id => exact (holds_get rfl).bind fun _ => .pure fun _ _ h => h
  | episodes runningOnly limit offset =>
    exact holds_records (by decide) (fun r h => .inl (scope_of_within (and_left h))) fun _ r hr =>
      mem_of_mem_drop (mem_of_mem_take hr)
  | saveSteps rowId steps =>
    refine Holds.then (Q := fun _ _ => True) ?_ fun _ =>
      (holds_deleteWhere fun r h => scope_of_within (and_left (and_left h))).then fun _ => holds_unit
    exact Ensures.forM (fun x => holds_put fun s _ => fits_own rfl (scope_tagged _)) _
  | steps rowId =>
    exact holds_records (by decide) (fun r h => .inl (scope_of_within (and_left h))) fun _ _ h => h

/-! ## Every run -/

/-- The terms every operation keeps, and what it returns. -/
def discipline : Discipline tenants where
  inv := Inv
  rely _ := Keeps
  guarantee op i := Change op.bucket i
  post op _ s r := ∀ a, r = .ok a → ∀ x ∈ a.records, Shown op.bucket s x

theorem Shown.keeps (h : Keeps s t) {r} (hr : Shown b s r) : Shown b t r where
  visible := hr.visible
  written := hr.written.imp fun _ hj => h.log hj
  stays hb := by
    obtain ⟨v, hv, he⟩ := hr.stays hb
    obtain ⟨w, hw, he'⟩ := h.stays hb hv
    exact ⟨w, hw, he'.trans he⟩

theorem discipline_kept : discipline.Kept where
  refl _ _ := Change.keeps (b := "") (i := 0) .idle
  trans _ _ _ _ h h' := ⟨fun _ hm => h'.log (h.log hm), fun hb hv => by
    obtain ⟨w, hw, he⟩ := h.stays hb hv
    obtain ⟨x, hx, he'⟩ := h'.stays hb hw
    exact ⟨x, hx, he'.trans he⟩⟩
  relies _ _ h := Change.keeps h
  unused _ _ _ _ := trivial
  begins op i s hs _ := (perform_holds op.2 s hs trivial).mono hs fun r t _ hr a ha => by
    subst ha
    exact hr

theorem inv_initial : Inv {} :=
  ⟨fun h => (by cases h), fun h => (by cases h), fun h => (by cases h)⟩

/-- A record given to a handle is of its bucket or global, and was written through a handle of that
bucket; unless it is global, through no other. And no call made through a handle changes a record of
another bucket, unless it is global. -/
theorem tenants_isolated {w : LedgerWorld} (h : Runs tenants { store := {} } w) :
    (∀ (i : Nat) (op : Request) (a : Answer), w.running[i]? = some (op, .done (.ok a)) →
      ∀ r ∈ a.records, (scope r.2 = op.bucket ∨ scope r.2 = "") ∧
        (∃ j, (j, (scope r.2, r.1)) ∈ w.store.log) ∧
        (scope r.2 ≠ "" → ∀ j b, (j, (b, r.1)) ∈ w.store.log → b = op.bucket)) ∧
    ∀ i op w', Calls tenants i op w w' → ∀ k v, w.store.docs.lookup k = some v →
      scope v.doc ≠ op.bucket → scope v.doc ≠ "" → w'.store.docs.lookup k = some v := by
  have hs : discipline.Settled w := discipline_kept.settled_runs
    (Discipline.settled_initial inv_initial fun _ => trivial) h
  refine ⟨fun i op a hi r hr => ?_, fun i op w' hc k v hv hb hg =>
    (hs.calls hc).untouched hs.inv hv hb hg⟩
  have ho := hs.returned hi (fun hk hp a ha x hx => (hp a ha x hx).keeps hk) a rfl r hr
  refine ⟨ho.visible, ho.written, fun hg j b hj => ?_⟩
  rw [← ho.visible.resolve_right hg]
  obtain ⟨j', hj'⟩ := ho.written
  cases hb : r.1.bucket with
  | none =>
    obtain ⟨v, hv, he⟩ := ho.stays hb
    obtain ⟨v', hv', hb'⟩ := hs.inv.stays hj hb
    cases hv.symm.trans hv'
    rw [he] at hb'
    exact (hb'.resolve_right hg).symm
  | some b' => rw [hs.inv.keyed hj b' hb, hs.inv.keyed hj' b' hb]

/-- One tenant links a variant and asks for its parent, and so does another tenant. -/
def twoTenants : LedgerWorld :=
  World.exec tenants Store.answer { store := {} }
    [.start (some "a", .linkVariant "p" "v"), .calls 0 9, .start (some "a", .parentOf "v"), .calls 1 9,
      .start (some "b", .parentOf "v"), .calls 2 9]

theorem runs_twoTenants : Runs tenants { store := {} } twoTenants :=
  runs_exec Store.serves_answer _ _

theorem other_tenant_excluded :
    (∃ a : Answer, twoTenants.running[1]? = some ((some "a", .parentOf "v"), .done (.ok a)) ∧
      a.records.length = 1 ∧ ∀ r ∈ a.records, ∀ j b, (j, (b, r.1)) ∈ twoTenants.store.log →
        scope r.2 ≠ "" → b = "a") ∧
    ∃ a : Answer, twoTenants.running[2]? = some ((some "b", .parentOf "v"), .done (.ok a)) ∧
      a.records = [] := by
  refine ⟨⟨_, rfl, rfl, fun r hr j b hj hg => ?_⟩, _, rfl, rfl⟩
  exact ((tenants_isolated runs_twoTenants).1 1 (some "a", .parentOf "v") _ rfl r hr).2.2 hg j b hj

end Tinyflows.Adaptive.Ledger
