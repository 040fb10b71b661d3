import Tinyflows.Nodes.Dedup
import Tinyflows.Validate.All

/-!
# Settling runs of a `dedup` node

Keys move from the tentative set of a run to the committed set, or to the carryover set and from there to
the committed set. Wherever a settlement stops, no key has been lost and none has been made up.
-/

namespace Tinyflows.Nodes.Dedup
open Lib Engine Finset List Finmap

/-! ## The sets of a node -/

inductive Slot where
  | committed
  | carryover
  | tentative (run : Option String)
  deriving DecidableEq

def Slot.key (node : String) : Slot → String
  | .committed => committedKey node
  | .carryover => carryoverKey node
  | .tentative run => tentativeKey node run

theorem Slot.key_injective (node) : Function.Injective (Slot.key node) := by
  intro a b h
  have h := congrArg String.toList h
  cases a with
  | committed =>
    cases b with
    | committed => rfl
    | carryover => simp [key, committedKey, carryoverKey] at h
    | tentative run => cases run <;> simp [key, committedKey, tentativeKey] at h
  | carryover =>
    cases b with
    | committed => simp [key, committedKey, carryoverKey] at h
    | carryover => rfl
    | tentative run => cases run <;> simp [key, carryoverKey, tentativeKey] at h
  | tentative run =>
    cases b with
    | committed => cases run <;> simp [key, committedKey, tentativeKey] at h
    | carryover => cases run <;> simp [key, carryoverKey, tentativeKey] at h
    | tentative ot =>
      cases run <;> cases ot <;> simp [key, tentativeKey] at h <;> simp [String.ext_iff, h]

/-! ### The keys of two nodes -/

def Slot.suffix : Slot → List Char
  | .committed => ':' :: "committed".toList
  | .carryover => ':' :: "uncommitted".toList
  | .tentative none => ':' :: "tentative".toList
  | .tentative (some run) => ':' :: ("tentative".toList ++ ':' :: run.toList)

/-- The id `b` is the id `a` followed by what starts the tentative keys of `a`. -/
def Extends (a b : String) : Prop :=
  b = a ++ ":tentative" ∨ ∃ rest, b = a ++ ":tentative:" ++ rest

/-- Only the same slot of the same node has the same key. -/
def Isolated (a b : String) : Prop :=
  ∀ slot slot' : Slot, slot.key a = slot'.key b → a = b ∧ slot = slot'

theorem Slot.key_toList (node) (sl : Slot) :
    (sl.key node).toList = "dedup:".toList ++ (node.toList ++ sl.suffix) := by
  match sl with
  | .committed => simp [key, committedKey, suffix]
  | .carryover => simp [key, carryoverKey, suffix]
  | .tentative none => simp [key, tentativeKey, suffix]
  | .tentative (some run) => simp [key, tentativeKey, suffix]

theorem Slot.suffix_eq_cons (sl : Slot) : ∃ rt, sl.suffix = ':' :: rt := by
  match sl with
  | .committed | .carryover | .tentative none | .tentative (some _) => exact ⟨_, rfl⟩

section Words

variable {word x rt rt' : List Char}

theorem not_split_word (hw : ':' ∉ word) (h : word = x ++ ':' :: rt) : False :=
  hw (by simp [h])

theorem split_after_word (hw : ':' ∉ word) (h : word ++ ':' :: rt = x ++ ':' :: rt') :
    x = word ∨ word ++ [':'] <+: x := by
  rcases append_eq_append_iff.mp h with ⟨y, rfl, hy⟩ | ⟨y, hy, hr⟩
  · cases y with
    | nil => exact .inl (append_nil word)
    | cons c y =>
      obtain rfl := (cons.inj hy).1
      exact .inr ⟨y, by simp⟩
  · cases y with
    | nil => exact .inl (by rw [hy, append_nil])
    | cons c y =>
      obtain rfl := (cons.inj hr).1
      exact (not_split_word hw hy).elim

end Words

/-- A suffix that ends in another one is that of a run. -/
theorem Slot.suffix_split {sl sl' : Slot} {x} (hx : x ≠ []) (h : sl.suffix = x ++ sl'.suffix) :
    x = ":tentative".toList ∨ ":tentative:".toList <+: x := by
  obtain ⟨rt, hr⟩ := sl'.suffix_eq_cons
  obtain ⟨c, x, rfl⟩ := exists_cons_of_ne_nil hx
  rw [hr] at h
  match sl with
  | .committed => exact (not_split_word (by decide) (cons.inj h).2).elim
  | .carryover => exact (not_split_word (by decide) (cons.inj h).2).elim
  | .tentative none => exact (not_split_word (by decide) (cons.inj h).2).elim
  | .tentative (some run) =>
    obtain ⟨rfl, hu⟩ := cons.inj h
    have hw : ':' ∉ "tentative".toList := by decide
    rcases split_after_word hw hu with rfl | ⟨y, rfl⟩
    · exact .inl rfl
    · exact .inr ⟨y, rfl⟩

section Pairs

variable {a b : String}

theorem extends_of_append {sl sl' : Slot} {x} (hx : x ≠ [])
    (hb : b.toList = a.toList ++ x) (h : sl.suffix = x ++ sl'.suffix) : Extends a b := by
  rcases Slot.suffix_split hx h with rfl | ⟨rt, rfl⟩
  · exact .inl (String.ext (by simpa using hb))
  · exact .inr ⟨String.ofList rt, String.ext (by simpa using hb)⟩

theorem Extends.ne (h : Extends a b) : a ≠ b := by
  rintro rfl
  rcases h with h | ⟨rt, h⟩
  · simpa using congrArg String.toList h
  · simpa using congrArg String.toList h

theorem Isolated.symm (h : Isolated a b) : Isolated b a := by
  intro sl sl' he
  obtain ⟨rfl, rfl⟩ := h sl' sl he.symm
  exact ⟨rfl, rfl⟩

/-- The committed key of the longer id is a tentative key of the shorter one. -/
theorem Extends.not_isolated (h : Extends a b) : ¬ Isolated a b := by
  intro ha
  have hc : ∃ run, (Slot.tentative (some run)).key a = Slot.committed.key b := by
    rcases h with rfl | ⟨rt, rfl⟩
    · exact ⟨"committed", String.ext (by simp [Slot.key, tentativeKey, committedKey])⟩
    · exact ⟨rt ++ ":committed", String.ext (by simp [Slot.key, tentativeKey, committedKey])⟩
  obtain ⟨run, hk⟩ := hc
  exact h.ne (ha _ _ hk).1

theorem isolated_of_not_extends (hab : ¬ Extends a b) (hB : ¬ Extends b a) : Isolated a b := by
  intro sl sl' he
  have hl := congrArg String.toList he
  rw [Slot.key_toList, Slot.key_toList, append_cancel_left_eq] at hl
  -- Either id may be the longer one.
  rcases append_eq_append_iff.mp hl with ⟨x, hb, hx⟩ | ⟨x, ha, hx⟩
  · by_cases hn : x = []
    · obtain rfl : a = b := String.ext (by simpa [hn] using hb.symm)
      exact ⟨rfl, Slot.key_injective a he⟩
    · exact absurd (extends_of_append hn hb hx) hab
  · by_cases hn : x = []
    · obtain rfl : a = b := String.ext (by simpa [hn] using ha)
      exact ⟨rfl, Slot.key_injective a he⟩
    · exact absurd (extends_of_append hn ha hx) hB

/-- Two nodes keep their sets apart exactly if neither id extends the other by the word that marks a
tentative key. Then what one writes is not read by the other. -/
theorem dedup_nodes_isolated_iff (a b : String) :
    (Isolated a b ↔ ¬ Extends a b ∧ ¬ Extends b a) ∧
      (Isolated a b → a ≠ b → ∀ (slot slot' : Slot) (s : Kv) (written : Json),
        (s.insert (slot.key a) written).lookup (slot'.key b) = s.lookup (slot'.key b) ∧
          (s.erase (slot.key a)).lookup (slot'.key b) = s.lookup (slot'.key b)) := by
  refine ⟨⟨fun h => ⟨fun hab => hab.not_isolated h, fun hba => hba.not_isolated h.symm⟩,
    fun h => isolated_of_not_extends h.1 h.2⟩, fun h hne slot slot' s written => ?_⟩
  have hkey : slot'.key b ≠ slot.key a := fun heq => hne (h _ _ heq.symm).1
  exact ⟨lookup_insert_of_ne _ hkey, lookup_erase_ne hkey⟩

def nestedIds : Model.WorkflowGraph where
  nodes := [{ id := "start", kind := .trigger },
    { id := "a", kind := .dedup, config := .obj [("key", .str "=item.id")] },
    { id := "a:tentative", kind := .dedup, config := .obj [("key", .str "=item.id")] }]
  edges := [{ fromNode := "start", toNode := "a" }, { fromNode := "a", toNode := "a:tentative" }]

/-- A run of the first node that is called `committed` stages its keys where the second one looks for
what is committed. -/
theorem nestedIds_collide :
    Validate.validateAll (.sorted _) (.sortedPairs _) nestedIds = [] ∧
      nestedIds.ids = ["start", "a", "a:tentative"] ∧
      (Slot.tentative (some "committed")).key "a" = Slot.committed.key "a:tentative" := by
  decide

end Pairs

/-! ### What a key holds -/

def keys (node : String) (slot : Slot) (s : Kv) : HashSet String :=
  keySet (s.lookup (slot.key node))

theorem keySet_encodeKeys (keys) : keySet (some (encodeKeys keys)) = keys := by
  ext key
  have hm : key ∈ sortedKeys keys ↔ key ∈ keys := (IterOrder.sorted String).mem_keys keys key
  simp [keySet, encodeKeys, Json.asArray, filterMap_map, Function.comp_def, Json.asStr, hm]

@[simp] theorem keys_insert (node sl sl' s wr) :
    keys node sl (s.insert (sl'.key node) (encodeKeys wr)) =
      if sl = sl' then wr else keys node sl s := by
  unfold keys
  split_ifs with h
  · subst h
    rw [lookup_insert]
    exact keySet_encodeKeys wr
  · rw [lookup_insert_of_ne _ ((Slot.key_injective node).ne h)]

@[simp] theorem keys_erase (node sl sl' s) :
    keys node sl (s.erase (sl'.key node)) = if sl = sl' then ∅ else keys node sl s := by
  unfold keys
  split_ifs with h
  · subst h
    rw [lookup_erase]
    rfl
  · rw [lookup_erase_ne ((Slot.key_injective node).ne h)]

/-! ## One settlement -/

structure Settling (node : String) (run : Option String) (s t : Kv) : Prop where
  keeps : keys node .committed s ⊆ keys node .committed t
  enters : keys node .committed t ⊆
    keys node .committed s ∪ (keys node (.tentative run) s ∪ keys node .carryover s)
  carried : keys node .carryover s ⊆ keys node .carryover t ∪ keys node .committed t
  parked : keys node .carryover t ⊆ keys node .carryover s ∪ keys node (.tentative run) s
  conserved : keys node (.tentative run) s ⊆
    keys node .committed t ∪ (keys node .carryover t ∪ keys node (.tentative run) t)
  shrinks : keys node (.tentative run) t ⊆ keys node (.tentative run) s
  others : ∀ other, other ≠ run → keys node (.tentative other) t = keys node (.tentative other) s

section Moves

variable {node : String} {run : Option String} {s t : Kv}

theorem Settling.refl : Settling node run s s where
  keeps := subset_rfl
  enters := subset_union_left
  carried := subset_union_left
  parked := subset_union_left
  conserved := fun _ hk => by simp [hk]
  shrinks := subset_rfl
  others _ _ := rfl

theorem Settling.promote {cr} (h : cr ⊆ keys node .carryover s) :
    Settling node run s (s.insert (Slot.committed.key node)
      (encodeKeys (keys node .committed s ∪ (keys node (.tentative run) s ∪ cr)))) where
  keeps := by simp [subset_union_left]
  enters := by
    simp only [keys_insert, if_pos]
    exact union_subset_union_right (union_subset_union_right h)
  carried := by simp [subset_union_left]
  parked := by simp [subset_union_left]
  conserved := fun _ hk => by simp [hk]
  shrinks := by simp
  others _ _ := by simp

theorem Settling.park (h : Settling node run s t) :
    Settling node run s (t.insert (Slot.carryover.key node)
      (encodeKeys (keys node .carryover s ∪ keys node (.tentative run) s))) where
  keeps := by simpa using h.keeps
  enters := by simpa using h.enters
  carried := fun _ hk => by simp [hk]
  parked := by simp
  conserved := fun _ hk => by simp [hk]
  shrinks := by simpa using h.shrinks
  others other ho := by simpa using h.others other ho

theorem Settling.clear (h : Settling node run s t)
    (hm : keys node (.tentative run) s ⊆ keys node .committed t ∪ keys node .carryover t) :
    Settling node run s (t.erase ((Slot.tentative run).key node)) where
  keeps := by simpa using h.keeps
  enters := by simpa using h.enters
  carried := by simpa using h.carried
  parked := by simpa using h.parked
  conserved := by simpa using hm
  shrinks := by simp
  others other ho := by simpa [ho] using h.others other ho

theorem Settling.drop (h : Settling node run s t) (hc : keys node .carryover s ⊆ keys node .committed t)
    (hm : keys node (.tentative run) s ⊆ keys node .committed t) :
    Settling node run s (t.erase (Slot.carryover.key node)) where
  keeps := by simpa using h.keeps
  enters := by simpa using h.enters
  carried := by simpa using hc
  parked := by simp
  conserved := fun k hk => by simp [hm hk]
  shrinks := by simpa using h.shrinks
  others other ho := by simpa using h.others other ho

end Moves

section Rules

variable {inv : Kv → Prop} {α : Type} {po : Kv → α → Prop} {s : Kv}

variable {key : String} {f : Except String Unit → Prog α}

theorem meets_load {f} (hs : inv s)
    (ho : (f (.ok (keySet (s.lookup key)))).Meets (.alone Serves inv) po s)
    (he : ∀ e, (f (.error e)).Meets (.alone Serves inv) po s) :
    (loadKeySet key >>= f).Meets (.alone Serves inv) po s := by
  rintro _ ht rfl re u hS
  cases hS with
  | get => exact ⟨trivial, hs, ho⟩
  | getFailed e => exact ⟨trivial, hs, he e⟩

theorem meets_store {wr} (hs : inv s) (he : inv (s.insert key (encodeKeys wr)))
    (ho : (f (.ok ())).Meets (.alone Serves inv) po (s.insert key (encodeKeys wr)))
    (hf : ∀ e, (f (.error e)).Meets (.alone Serves inv) po s) (hu : ∀ e,
      (f (.error e)).Meets (.alone Serves inv) po (s.insert key (encodeKeys wr))) :
    (storeKeySet key wr >>= f).Meets (.alone Serves inv) po s := by
  rintro _ ht rfl re u hS
  cases hS with
  | set => exact ⟨trivial, he, ho⟩
  | setFailed e => exact ⟨trivial, hs, hf e⟩
  | setUnconfirmed e => exact ⟨trivial, he, hu e⟩

theorem meets_delete (hs : inv s) (hd : inv (s.erase key))
    (hk : ∀ re, (f re).Meets (.alone Serves inv) po s)
    (hl : ∀ re, (f re).Meets (.alone Serves inv) po (s.erase key)) :
    (kvDelete key >>= f).Meets (.alone Serves inv) po s := by
  rintro _ ht rfl re u he
  cases he with
  | delete => exact ⟨trivial, hd, hl _⟩
  | deleteFailed e => exact ⟨trivial, hs, hk _⟩
  | deleteUnconfirmed e => exact ⟨trivial, hd, hl _⟩

end Rules

section Programs

variable {node : String} {run : Option String} {s t : Kv}

variable {carryover : Option (HashSet String)}

theorem parkForRetry_settling {pk} (hp : ∀ key ∈ pk, key = carryoverKey node)
    (hc : ∀ re ∈ carryover, re = keys node .carryover s) (h : Settling node run s t) (er) :
    (parkForRetry (tentativeKey node run) pk (keys node (.tentative run) s) carryover er).Meets
      (.alone Serves (Settling node run s)) (fun _ _ => True) t := by
  cases pk with
  | none => exact trivial
  | some key =>
    obtain rfl := hp key rfl
    cases carryover with
    | none => exact trivial
    | some re =>
      obtain rfl := hc re rfl
      unfold parkForRetry
      dsimp only
      split_ifs
      · refine meets_store h h.park ?_ (fun _ => trivial) (fun _ => trivial)
        refine meets_delete h.park (h.park.clear ?_) (fun _ => trivial) (fun _ => trivial)
        exact fun k hk => by simp [hk]
      · exact trivial

theorem commitKeys_settling (hc : ∀ re ∈ carryover, re = keys node .carryover s) :
    (commitKeys node run (keys node (.tentative run) s) carryover).Meets
      (.alone Serves (Settling node run s)) (fun _ _ => True) s := by
  have ha : ∀ key ∈ run.map fun _ => carryoverKey node, key = carryoverKey node := by
    cases run <;> simp
  have hs : carryover.getD ∅ ⊆ keys node .carryover s := by
    cases carryover with
    | none => exact empty_subset _
    | some re => exact (hc re rfl).subset
  have hp := @Settling.promote node run s _ hs
  have hl := hp.clear fun k hk => by simp [hk]
  unfold commitKeys
  dsimp only
  split_ifs with hn he
  · exact trivial
  · refine meets_load .refl ?_ (parkForRetry_settling ha hc .refl)
    refine meets_store .refl hp ?_ (parkForRetry_settling ha hc .refl) (parkForRetry_settling ha hc hp)
    exact meets_delete hp hl (fun _ => trivial) (fun _ => trivial)
  · refine meets_load .refl ?_ (parkForRetry_settling ha hc .refl)
    refine meets_store .refl hp ?_ (parkForRetry_settling ha hc .refl) (parkForRetry_settling ha hc hp)
    have hal : carryover.getD ∅ = keys node .carryover s := by
      cases carryover with
      | none => exact absurd rfl he
      | some re => exact hc re rfl
    refine meets_delete hp hl ?_ ?_
    · intro _
      refine meets_delete hp (hp.drop ?_ ?_) (fun _ => trivial) (fun _ => trivial)
      · exact fun k hk => by simp [hal, hk]
      · exact fun k hk => by simp [hk]
    · intro _
      refine meets_delete hl (hl.drop ?_ ?_) (fun _ => trivial) (fun _ => trivial)
      · exact fun k hk => by simp [hal, hk]
      · exact fun k hk => by simp [hk]

theorem commit_settling : (commit node run).Meets (.alone Serves (Settling node run s))
    (fun _ _ => True) s := by
  refine meets_load .refl ?_ fun _ => trivial
  refine meets_load .refl ?_ fun _ => ?_
  · exact commitKeys_settling (by simp [Except.toOption, keys, Slot.key])
  · exact commitKeys_settling (by simp [Except.toOption])

structure Released (node : String) (run : Option String) (s t : Kv) : Prop where
  committed : keys node .committed t = keys node .committed s
  carryover : keys node .carryover t = keys node .carryover s
  tentative : keys node (.tentative run) t ⊆ keys node (.tentative run) s
  others : ∀ other, other ≠ run → keys node (.tentative other) t = keys node (.tentative other) s

theorem Released.refl : Released node run s s :=
  ⟨rfl, rfl, subset_rfl, fun _ _ => rfl⟩

theorem release_released : (release node run).Meets (.alone Serves (Released node run s))
    (fun _ _ => True) s := by
  have he : Released node run s (s.erase ((Slot.tentative run).key node)) :=
    ⟨by simp, by simp, by simp, fun ot ho => by simp [ho]⟩
  rintro _ ht rfl re u hs
  cases hs with
  | delete => exact ⟨trivial, he, trivial⟩
  | deleteFailed e => exact ⟨trivial, .refl, trivial⟩
  | deleteUnconfirmed e => exact ⟨trivial, he, trivial⟩

structure Staged (node : String) (run : Option String) (seen : HashSet String) (s t : Kv) : Prop where
  committed : keys node .committed t = keys node .committed s
  carryover : keys node .carryover t = keys node .carryover s
  keeps : keys node (.tentative run) s ⊆ keys node (.tentative run) t
  adds : keys node (.tentative run) t ⊆ keys node (.tentative run) s ∪ seen
  others : ∀ other, other ≠ run → keys node (.tentative other) t = keys node (.tentative other) s

theorem Staged.refl {se} : Staged node run se s s :=
  ⟨rfl, rfl, subset_rfl, subset_union_left, fun _ _ => rfl⟩

theorem execute_staged (resolve render ip) :
    (execute resolve render node run ip).Meets (.alone Serves (Staged node run
      (filterItems resolve render (keys node .committed s) ip).2 s)) (fun _ _ => True) s := by
  have hs : ∀ se, Staged node run se s (s.insert ((Slot.tentative run).key node)
      (encodeKeys (keys node (.tentative run) s ∪ se))) := fun se =>
    ⟨by simp, by simp, by simp, by simp, fun ot ho => by simp [ho]⟩
  have hc : keySet (s.lookup (committedKey node)) = keys node .committed s := rfl
  refine meets_load .refl ?_ fun _ => trivial
  simp only [hc]
  generalize filterItems resolve render (keys node .committed s) ip = filtered
  obtain ⟨pa, se⟩ := filtered
  dsimp only
  split_ifs
  · exact trivial
  · refine meets_load .refl ?_ fun _ => trivial
    exact meets_store .refl (hs se) trivial (fun _ => trivial) (fun _ => trivial)

end Programs

/-! ## Every history -/

/-- The store, the keys that the executions of each run let pass, and the runs settled as successful. -/
structure History where
  kv : Kv := ∅
  passed : HashSet (Option String × String) := ∅
  successful : HashSet (Option String) := ∅

section Histories

variable (node : String) (resolve : Json → Json) (render : Json → String)

/-- The node of a run is executed, or a run is settled. Either may break off after any of its calls. -/
inductive Step : History → History → Prop
  | execute {h : History} {t : Kv} (run : Option String) (input : List Item)
      (hleads : (execute resolve render node run input).Leads Serves h.kv t) :
      Step h { h with
        kv := t
        passed := h.passed ∪
          (filterItems resolve render (keys node .committed h.kv) input).2.image fun key => (run, key) }
  | settle {h : History} {t : Kv} (run : Option String) (success : Bool)
      (hleads : (settle node run success).Leads Serves h.kv t) :
      Step h { h with
        kv := t
        successful := if success then insert run h.successful else h.successful }

/-- What has happened after any number of steps. -/
abbrev Reached : History → Prop :=
  Relation.ReflTransGen (Step node resolve render) {}

/-- A run that was settled as successful has let the key pass. -/
def History.Earned (h : History) (key : String) : Prop :=
  ∃ run ∈ h.successful, (run, key) ∈ h.passed

structure Accounted (node : String) (h : History) : Prop where
  tentative : ∀ run, ∀ key ∈ keys node (.tentative run) h.kv, (run, key) ∈ h.passed
  carryover : ∀ key ∈ keys node .carryover h.kv, h.Earned key
  committed : ∀ key ∈ keys node .committed h.kv, h.Earned key

end Histories

section Steps

variable {node : String} {resolve : Json → Json} {render : Json → String} {h h' : History}

variable {run : Option String} {s t : Kv}

theorem settling_of_leads (hl : (commit node run).Leads Serves s t) : Settling node run s t :=
  commit_settling.leads .refl hl

theorem settling_of_settle (hl : (settle node run true).Leads Serves s t) : Settling node run s t := by
  have hm : (settle node run true).Meets (.alone Serves (Settling node run s)) (fun _ _ => True) s :=
    Program.Meets.bind .refl commit_settling fun _ _ _ _ => trivial
  exact hm.leads .refl hl

theorem released_of_settle (hl : (settle node run false).Leads Serves s t) : Released node run s t := by
  have hm : (settle node run false).Meets (.alone Serves (Released node run s)) (fun _ _ => True) s :=
    Program.Meets.bind .refl release_released fun _ _ _ _ => trivial
  exact hm.leads .refl hl

theorem Accounted.step (h₀ : Accounted node h) (hsp : Step node resolve render h h') :
    Accounted node h' := by
  cases hsp with
  | execute run ip hl =>
    have hs := (execute_staged resolve render ip).leads .refl hl
    refine ⟨?_, ?_, ?_⟩
    · intro ot key hk
      by_cases ho : ot = run
      · subst ho
        rcases mem_union.mp (hs.adds hk) with hk | hn
        · exact mem_union_left _ (h₀.tentative ot key hk)
        · exact mem_union_right _ (mem_image_of_mem _ hn)
      · rw [hs.others ot ho] at hk
        exact mem_union_left _ (h₀.tentative ot key hk)
    · intro key hk
      rw [hs.carryover] at hk
      obtain ⟨ea, he, hp⟩ := h₀.carryover key hk
      exact ⟨ea, he, mem_union_left _ hp⟩
    · intro key hk
      rw [hs.committed] at hk
      obtain ⟨ea, he, hp⟩ := h₀.committed key hk
      exact ⟨ea, he, mem_union_left _ hp⟩
  | settle run su hl =>
    cases su with
    | false =>
      have hr := released_of_settle hl
      refine ⟨?_, hr.carryover ▸ h₀.carryover, hr.committed ▸ h₀.committed⟩
      intro ot key hk
      by_cases ho : ot = run
      · subst ho
        exact h₀.tentative ot key (hr.tentative hk)
      · exact h₀.tentative ot key (hr.others ot ho ▸ hk)
    | true =>
      have hS := settling_of_settle hl
      have hw : ∀ key ∈ keys node (.tentative run) h.kv,
          ∃ ea ∈ insert run h.successful, (ea, key) ∈ h.passed := fun key hk =>
        ⟨run, mem_insert_self _ _, h₀.tentative run key hk⟩
      have hE : ∀ key, h.Earned key → ∃ ea ∈ insert run h.successful, (ea, key) ∈ h.passed :=
        fun key ⟨ea, he, hp⟩ => ⟨ea, mem_insert_of_mem he, hp⟩
      refine ⟨?_, ?_, ?_⟩
      · intro ot key hk
        by_cases ho : ot = run
        · subst ho
          exact h₀.tentative ot key (hS.shrinks hk)
        · exact h₀.tentative ot key (hS.others ot ho ▸ hk)
      · intro key hk
        rcases mem_union.mp (hS.parked hk) with hk | hk
        · exact hE key (h₀.carryover key hk)
        · exact hw key hk
      · intro key hk
        rcases mem_union.mp (hS.enters hk) with hk | hk
        · exact hE key (h₀.committed key hk)
        · rcases mem_union.mp hk with hk | hk
          · exact hw key hk
          · exact hE key (h₀.carryover key hk)

theorem accounted_of_reached (hr : Reached node resolve render h) : Accounted node h := by
  induction hr with
  | refl => exact ⟨by simp [keys, keySet], by simp [keys, keySet], by simp [keys, keySet]⟩
  | tail _ hs ih => exact ih.step hs

theorem sets_of_step (hp : Step node resolve render h h') :
    keys node .committed h.kv ⊆ keys node .committed h'.kv ∧
      keys node .carryover h.kv ⊆ keys node .carryover h'.kv ∪ keys node .committed h'.kv := by
  cases hp with
  | execute run ip hl =>
    have hs := (execute_staged resolve render ip).leads .refl hl
    exact ⟨hs.committed.symm.subset, hs.carryover.symm.subset.trans subset_union_left⟩
  | settle run su hl =>
    cases su with
    | false =>
      have hr := released_of_settle hl
      exact ⟨hr.committed.symm.subset, hr.carryover.symm.subset.trans subset_union_left⟩
    | true =>
      have he := settling_of_settle hl
      exact ⟨he.keeps, he.carried⟩

end Steps

/-- In every history of executions and settlements, whatever calls fail and wherever they break off: only
keys that a run settled as successful let pass are committed, no step takes a key from the committed set,
none takes one from the carryover set that is not committed then, and wherever a commit ends the keys of its
run are committed, carried over or still tentative. -/
theorem settlement_conserves {node : String} {resolve : Json → Json} {render : Json → String}
    {h : History} (hreached : Reached node resolve render h) :
    (∀ key ∈ keys node .committed h.kv, ∃ run ∈ h.successful, (run, key) ∈ h.passed) ∧
    (∀ h', Step node resolve render h h' → keys node .committed h.kv ⊆ keys node .committed h'.kv ∧
      keys node .carryover h.kv ⊆ keys node .carryover h'.kv ∪ keys node .committed h'.kv) ∧
    ∀ run t, (commit node run).Leads Serves h.kv t →
      keys node (.tentative run) h.kv ⊆
        keys node .committed t ∪ (keys node .carryover t ∪ keys node (.tentative run) t) :=
  ⟨(accounted_of_reached hreached).committed, fun _ => sets_of_step,
    fun _ _ hleads => (settling_of_leads hleads).conserved⟩

/-- A store that refuses to write the committed set as long as the first run has tentative keys. -/
def refusing (s : Kv) : (c : KvCall) → c.Reply × Kv
  | .get key => (.ok (s.lookup key), s)
  | .set key value =>
    if key = committedKey "n" ∧ (s.lookup (tentativeKey "n" (some "first"))).isSome then
      (.error "full", s)
    else (.ok (), s.insert key value)
  | .delete key => (.ok (), s.erase key)

theorem serves_refusing (s c) : Serves s c (refusing s c).1 (refusing s c).2 := by
  cases c with
  | get key => exact .get
  | set key va =>
    dsimp only [refusing]
    split_ifs
    · exact .setFailed "full"
    · exact .set
  | delete key => exact .delete

/-- The first run lets a key pass and its commit fails; the second run finds the key in the carryover. -/
def passedOn : History :=
  let staged := ((execute (fun _ => .obj [("key", .str "k")]) (fun _ => "") "n" (some "first")
    [{ json := .null }]).after refusing 3 ∅).2
  let parked := ((settle "n" (some "first") true).after refusing 6 staged).2
  let committed := ((settle "n" (some "second") true).after refusing 6 parked).2
  { kv := committed, passed := {(some "first", "k")}, successful := {some "second", some "first"} }

theorem reached_passedOn : Reached "n" (fun _ => .obj [("key", .str "k")]) (fun _ => "") passedOn := by
  refine ((Relation.ReflTransGen.refl.tail (Step.execute (some "first") [{ json := .null }]
    (Program.leads_after serves_refusing 3 _ _))).tail (Step.settle (some "first") true
    (Program.leads_after serves_refusing 6 _ _))).tail ?_
  exact Step.settle (some "second") true (Program.leads_after serves_refusing 6 _ _)

theorem settlement_conserves_passedOn : "k" ∈ keys "n" .committed passedOn.kv ∧
    ∃ run ∈ passedOn.successful, (run, "k") ∈ passedOn.passed :=
  have hkey : "k" ∈ keys "n" .committed passedOn.kv := by decide
  ⟨hkey, (settlement_conserves reached_passedOn).1 "k" hkey⟩

end Tinyflows.Nodes.Dedup
