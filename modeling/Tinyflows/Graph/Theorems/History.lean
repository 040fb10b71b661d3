import Tinyflows.Graph.Lemmas.Threads

/-!
# The history of a namespace

The driver loads a namespace once and takes the records out of a map; the trait reads one tuple for each
hop. Over the same point reads the two walks are one. The point reads of the trait itself find the id within
the namespace but the record in the whole thread, so there the walks part where a later record of another
namespace has the id.
-/

namespace Tinyflows.Graph.CheckpointStore
open Lib List Option HashMap

variable {S V : Type}

/-! ## Reads within a namespace -/

section OwnKey

variable {maxLen : Nat} {digest : Keys.Digest maxLen} {ns : List String}

/-- No other namespace is filed under the key of this one. -/
def OwnKey (digest : Keys.Digest maxLen) (ns : List String) : Prop :=
  ∀ ns', subgraphKey digest ns' = subgraphKey digest ns → ns' = ns

theorem subgraphKey_ok (digest : Keys.Digest maxLen) (hn : ns ≠ []) :
    ∃ key : Keys.Key maxLen, key.text = subgraphKey digest ns ∧
      Keys.Key.of (fun _ => "") digest.text (['n'] :: ns.map String.toList) = .ok key := by
  obtain ⟨key, hk⟩ := Keys.of_ok (fun _ => "") digest (cons_ne_nil ['n'] (ns.map String.toList))
    (by simp)
  exact ⟨key, by rw [subgraphKey, if_neg hn, hk], hk⟩

/-- A namespace has its key to itself if the key is its parts. Longer ones are told apart by their digests. -/
theorem ownKey_of_le (h : Keys.byteLength (Keys.escaped (['n'] :: ns.map String.toList)) ≤ maxLen) :
    OwnKey digest ns := by
  intro ns' he
  by_cases hn : ns = []
  · by_contra hn'
    obtain ⟨key', ht', -⟩ := subgraphKey_ok digest (hn ▸ hn' : ns' ≠ [])
    exact key'.nonempty (ht'.trans (he.trans (if_pos hn)))
  · obtain ⟨key, ht, hk⟩ := subgraphKey_ok digest hn
    have hn' : ns' ≠ [] := by
      rintro rfl
      exact key.nonempty (ht.trans (he.symm.trans (if_pos rfl)))
    obtain ⟨key', ht', hk'⟩ := subgraphKey_ok digest hn'
    obtain hp | ⟨hl, -⟩ := Keys.of_text_eq hk hk' (by rw [ht, ht', he])
    · exact map_injective_iff.mpr (fun _ _ h => String.toList_injective h) (cons.inj hp).2
    · exact absurd hl (Nat.not_lt.mpr h)

end OwnKey

variable {maxLen : Nat} {digest : Keys.Digest maxLen} {c : Checkpoint S V} {ns : List String}
  {s : CheckpointStore S V} {thread : ThreadId}

def recordReader (s : CheckpointStore S V) (thread : ThreadId) (ns : List String) :
    Reader CheckpointId (Checkpoint S V) where
  read := s.newestIn thread ns
  idOf := (·.checkpointId)
  parentOf := (·.parentCheckpointId)
  ids := s.checkpointIds thread
  known _ _ h := mem_checkpointIds (newestIn_self h).1

theorem recordReader_consistent : (s.recordReader thread ns).Consistent :=
  fun _ _ h => (newestIn_self h).2.2

theorem filter_getD (stored : Option (List (PendingWrite V))) (own) :
    (stored.filter (· ≠ [])).getD own = if (stored.getD []).isEmpty then own else stored.getD [] := by
  cases stored with
  | none => rfl
  | some writes => cases writes <;> rfl

section

variable (hk : OwnKey digest ns)
include hk

theorem OwnKey.iff {ns'} : subgraphKey digest ns' = subgraphKey digest ns ↔ ns' = ns :=
  ⟨hk ns', congrArg _⟩

theorem subgraphRecords_eq :
    s.subgraphRecords digest thread ns = (s.getThread thread).filter fun c => c.ns = ns := by
  simp only [subgraphRecords, hk.iff]

theorem driverGetScoped_eq (id) :
    s.driverGetScoped digest thread id ns = s.newestIn thread ns id := by
  cases id with
  | none =>
    simp only [driverGetScoped, subgraphRecords_eq hk, newestIn, ← filter_reverse, head?_filter]
  | some id =>
    simp only [driverGetScoped, subgraphRecords_eq hk, newestIn, ← filter_reverse, find?_filter]
    congr 1
    funext c
    simp [and_comm]

theorem driverReader_read (cursor) :
    (s.driverReader digest thread ns).read cursor = (s.newestIn thread ns cursor).map s.tupleOf :=
  congrArg (Option.map s.tupleOf) (driverGetScoped_eq hk cursor)

theorem lookup_subgraphWrites (order id) :
    (s.subgraphWrites digest order thread ns).lookup id = s.writes.lookup (thread, ns, id) := by
  refine lookup_collect fun writes => ?_
  rw [← @mem_iter _ _ _ order]
  simp only [mem_filterMap, ite_none_right_eq_some, hk.iff]
  constructor
  · rintro ⟨⟨⟨t, n, i⟩, w⟩, hd, ⟨rfl, rfl⟩, he⟩
    cases he
    exact hd
  · intro hd
    exact ⟨_, hd, ⟨rfl, rfl⟩, rfl⟩

theorem tuple_eq_tupleOf {order} (h : s.Sound) (hm : c ∈ s.getThread thread) (hn : c.ns = ns) :
    c.tuple ((((s.subgraphWrites digest order thread ns).lookup c.checkpointId).filter (· ≠ [])).getD
      c.pendingWrites) = s.tupleOf c := by
  obtain rfl := h.keyed thread c hm
  subst hn
  rw [lookup_subgraphWrites hk]
  simp only [tupleOf, resolvedWrites, getWrites, resolveWriteTarget]
  exact congrArg c.tuple (filter_getD _ c.pendingWrites)

theorem driverStateHistory_eq (order) (h : s.Sound) (limit) :
    s.driverStateHistory digest order thread ns limit = (s.driverReader digest thread ns).lineage limit := by
  have hi : (s.driverReader digest thread ns).lineage limit =
      ((s.recordReader thread ns).lineage limit).map s.tupleOf :=
    Reader.walk_map (r := s.recordReader thread ns) (driverReader_read hk) (fun _ => rfl) (fun _ => rfl)
      limit [] none ∅
  have hl : (s.recordReader thread ns).read none = (s.subgraphRecords digest thread ns).getLast? := by
    rw [← head?_reverse]
    exact (driverGetScoped_eq hk none).symm
  rw [hi, driverStateHistory]
  cases hs : (s.subgraphRecords digest thread ns).getLast? with
  | none =>
    have he := getLast?_eq_none_iff.mp hs
    rw [hs] at hl
    simp [he, Reader.lineage, Reader.walk_eq, hl]
  | some last =>
    have hn : s.subgraphRecords digest thread ns ≠ [] := by
      intro he
      simp [he] at hs
    have hw : Reader.consume (·.parentCheckpointId) limit []
        (collect ((s.subgraphRecords digest thread ns).map fun c => (c.checkpointId, c)))
        (some last.checkpointId) = (s.recordReader thread ns).lineage limit := by
      rw [hs] at hl
      refine (Reader.consume_eq_walk (r := s.recordReader thread ns) ?_ limit [] _ _ ∅ ?_).trans
        (Reader.walk_congr_cursor ?_ limit [] ∅)
      · intro id c hc
        have hf : c.checkpointId = id ∧ c.ns = ns := by simpa using find?_some hc
        exact hf.1
      · intro id
        rw [lookup_collect_eq_find, ← map_reverse, find?_map, Option.map_map,
          if_neg (Finset.notMem_empty id)]
        exact map_id'.trans (driverGetScoped_eq hk (some id))
      · rw [hl]
        exact recordReader_consistent none last hl
    rw [if_neg (by simpa using hn)]
    simp only [map_some, hw]
    refine map_congr_left fun c hc => ?_
    obtain ⟨cursor, hr⟩ := Reader.read_of_mem_lineage hc
    obtain ⟨hm, hc, -⟩ := newestIn_self hr
    exact tuple_eq_tupleOf hk h hm hc

end

/-! ## The two histories -/

/-- The `n`-th ancestor of the newest record of a namespace: the newest record there under the id that the
one before names as its parent. -/
def scopedAncestor (s : CheckpointStore S V) (thread : ThreadId) (ns : List String) :
    Nat → Option (Checkpoint S V)
  | 0 => s.newestIn thread ns none
  | n + 1 => (s.scopedAncestor thread ns n).bind fun c =>
    c.parentCheckpointId.bind fun parent => s.newestIn thread ns (some parent)

theorem scopedAncestor_read {n} (h : s.scopedAncestor thread ns n = some c) :
    ∃ id, s.newestIn thread ns id = some c := by
  cases n with
  | zero => exact ⟨none, h⟩
  | succ n =>
    obtain ⟨child, -, h⟩ := bind_eq_some_iff.mp h
    obtain ⟨parent, -, h⟩ := bind_eq_some_iff.mp h
    exact ⟨some parent, h⟩

/-- The record the trait loads in place of one found in the namespace. -/
def loaded (s : CheckpointStore S V) (thread : ThreadId) (t : CheckpointTuple S V) :
    CheckpointTuple S V :=
  s.tupleOf ((s.get thread (some t.checkpoint.checkpointId)).getD t.checkpoint)

theorem get_isSome (h : c ∈ s.getThread thread) :
    ∃ found, s.get thread (some c.checkpointId) = some found := by
  rw [← isSome_iff_exists, get, find?_isSome]
  exact ⟨c, mem_reverse.mpr h, by simp⟩

theorem loaded_eq_iff {n} (h : s.scopedAncestor thread ns n = some c) :
    s.loaded thread (s.tupleOf c) = s.tupleOf c ↔
      (s.get thread (some c.checkpointId)).map (·.ns) = some ns := by
  obtain ⟨id, hr⟩ := scopedAncestor_read h
  obtain ⟨hm, rfl, he⟩ := newestIn_self hr
  obtain ⟨newest, hn⟩ := get_isSome hm
  have hl : s.loaded thread (s.tupleOf c) = s.tupleOf newest := by
    simp [loaded, tupleOf, Checkpoint.tuple, hn]
  rw [hl, hn]
  constructor
  · intro hq
    have : newest = c := congrArg CheckpointTuple.checkpoint hq
    rw [this, map_some]
  · intro hs
    have hs : newest.ns = c.ns := some.inj hs
    have hc : s.newestIn thread c.ns (some c.checkpointId) = some newest :=
      find?_of_imp hn (by simp [hs, (mem_of_get hn).2]) (by simp +contextual)
    rw [hc] at he
    rw [some.inj he]

section

variable (hk : OwnKey digest ns)
include hk

theorem driverReader_ancestor (n) :
    (s.driverReader digest thread ns).ancestor n = (s.scopedAncestor thread ns n).map s.tupleOf := by
  induction n with
  | zero => exact driverReader_read hk none
  | succ n ih =>
    rw [Reader.ancestor, ih, scopedAncestor]
    cases s.scopedAncestor thread ns n with
    | none => rfl
    | some c =>
      simp only [map_some, bind_some, driverReader_read hk]
      cases hp : c.parentCheckpointId <;>
        simp [driverReader, tupleOf, Checkpoint.tuple, hp]

theorem redirects_loaded :
    Reader.Redirects (s.driverReader digest thread ns) (s.tupleReader thread ns) (s.loaded thread) where
  read cursor := by
    rw [driverReader_read hk]
    simp only [tupleReader, getTuple, getScoped_eq]
    cases hf : s.newestIn thread ns cursor with
    | none => rfl
    | some c =>
      obtain ⟨newest, hn⟩ := get_isSome (newestIn_self hf).1
      simp [loaded, tupleOf, Checkpoint.tuple, hn]
  idOf := rfl
  parentOf := rfl
  same t := by
    cases hn : s.get thread (some t.checkpoint.checkpointId) with
    | none => simp [loaded, hn, driverReader, tupleOf, Checkpoint.tuple]
    | some newest =>
      have := (mem_of_get hn).2
      simp [loaded, hn, driverReader, tupleOf, Checkpoint.tuple, this]

theorem driverReader_consistent : (s.driverReader digest thread ns).Consistent := by
  intro cursor t ht
  rw [driverReader_read hk] at ht
  obtain ⟨c, hc, rfl⟩ := map_eq_some_iff.mp ht
  rw [driverReader_read hk]
  exact congrArg (Option.map s.tupleOf) (newestIn_self hc).2.2

/-- The two histories are one exactly if every ancestor within the limit is the newest record of its id. -/
theorem lineage_eq_stateHistory_iff (limit) :
    (s.driverReader digest thread ns).lineage limit = s.stateHistory thread ns limit ↔
      ∀ k, (∀ n, limit = some n → k < n) → ∀ c, s.scopedAncestor thread ns k = some c →
        (s.get thread (some c.checkpointId)).map (·.ns) = some ns := by
  rw [eq_comm, stateHistory, (redirects_loaded hk).lineage_eq_iff limit]
  simp only [Reader.mem_lineage (driverReader_consistent hk), driverReader_ancestor hk]
  constructor
  · intro hf k hlt c hc
    exact (loaded_eq_iff hc).mp (hf _ ⟨k, hlt, by rw [hc, map_some]⟩)
  · rintro hn _ ⟨k, hlt, ht⟩
    obtain ⟨c, hc, rfl⟩ := map_eq_some_iff.mp ht
    exact (loaded_eq_iff hc).mpr (hn k hlt c hc)

end

/-- After any calls, for every namespace that has its key to itself and every limit: the driver's history
is the walk of the trait over the driver's reads, and lists the ancestors within the namespace in order, no
id twice and no more than the limit. It is the walk over the trait's own reads exactly if, of every ancestor
within the limit, the newest record with its id in the whole thread is of the namespace too. -/
theorem driver_history (order : IterOrder WriteKey) (calls : List (Call S V)) (thread : ThreadId)
    (hkey : OwnKey digest ns) (limit : Option Nat) : let s := after calls
    let history := s.driverStateHistory digest order thread ns limit
    history = (s.driverReader digest thread ns).lineage limit ∧
    (∀ i t, history[i]? = some t → (s.scopedAncestor thread ns i).map s.tupleOf = some t) ∧
    (history.map (·.checkpoint.checkpointId)).Nodup ∧
    (∀ n, limit = some n → history.length ≤ n) ∧
    (history = s.stateHistory thread ns limit ↔
      ∀ k, (∀ n, limit = some n → k < n) → ∀ c, s.scopedAncestor thread ns k = some c →
        (s.get thread (some c.checkpointId)).map (·.ns) = some ns) := by
  intro s history
  have hhistory : history = (s.driverReader digest thread ns).lineage limit :=
    driverStateHistory_eq hkey order (sound_after calls) limit
  obtain ⟨hlists, -⟩ := (s.driverReader digest thread ns).lineage_spec limit
  rw [hhistory]
  refine ⟨rfl, ?_, hlists.nodup, hlists.bounded, lineage_eq_stateHistory_iff hkey limit⟩
  intro i t ht
  rw [← driverReader_ancestor hkey]
  exact hlists.element i t ht

/-- A subgraph that gives its checkpoint the id of one of its parent. -/
def reused : List (Call Unit Unit) :=
  [.put (bare "a" none []), .put (bare "a" none ["sub"])]

/-- A digest that tells nothing apart. The keys at hand are short. -/
def blankDigest : Keys.Digest 9 := ⟨fun _ => [], fun _ => by decide, by simp⟩

theorem driver_history_sub : ∃ order : IterOrder WriteKey, OwnKey blankDigest ["sub"] ∧
    (after reused).driverStateHistory blankDigest order "t" ["sub"] (some 1) =
      (after reused).stateHistory "t" ["sub"] (some 1) := by
  have hkey : OwnKey blankDigest ["sub"] := ownKey_of_le (by decide)
  refine ⟨⟨Finset.toList, Finset.nodup_toList, fun s k => Finset.mem_toList⟩, hkey, ?_⟩
  refine (driver_history _ reused "t" hkey (some 1)).2.2.2.2.mpr fun k hlt => ?_
  obtain rfl : k = 0 := Nat.lt_one_iff.mp (hlt 1 rfl)
  decide

theorem driver_history_reused : ∃ order : IterOrder WriteKey, OwnKey blankDigest [] ∧
    (after reused).driverStateHistory blankDigest order "t" [] none ≠
      (after reused).stateHistory "t" [] none := by
  have hkey : OwnKey blankDigest [] := ownKey_of_le (by decide)
  refine ⟨⟨Finset.toList, Finset.nodup_toList, fun s k => Finset.mem_toList⟩, hkey, ?_⟩
  intro heq
  rw [driverStateHistory_eq hkey _ (sound_after reused), lineage_eq_stateHistory_iff hkey] at heq
  have hroot := heq 0 (by simp) (bare "a" none []) (by decide)
  revert hroot
  decide

end Tinyflows.Graph.CheckpointStore
