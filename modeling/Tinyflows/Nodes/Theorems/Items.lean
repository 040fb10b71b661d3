import Tinyflows.Nodes.Lemmas.Items

/-!
# Fanning out over items

A scatter loses no item and opens no empty lane. A node mapped over its items returns what it would
return running them one after the other, whatever order they complete in.
-/

namespace Tinyflows.Nodes
open Lib Model Engine Completes List Option

/-! ## Lanes -/

def laneBound (requested : Option Nat) : Nat :=
  match requested with
  | some n => min (max n 1) MAX_LANES
  | none => MAX_LANES

theorem laneBound_le (re) : laneBound re ≤ MAX_LANES := by
  cases re <;> simp [laneBound]

theorem split_spec (it la) :
    (split it la).flatten = it ∧ (∀ lane ∈ split it la, lane ≠ []) ∧
      (split it la).length ≤ laneBound la := by
  unfold split
  split
  case isTrue he => simp [he]
  case isFalse hn =>
    have hb : min (max (la.getD it.length) 1) MAX_LANES ≤ laneBound la := by
      cases la <;> simp [laneBound]
    dsimp only
    split
    case isTrue hf =>
      refine ⟨by rw [← flatMap_def, flatMap_singleton'], by simp, ?_⟩
      rw [length_map]
      exact hf.trans hb
    case isFalse hm =>
      have hp : 0 < min (max (la.getD it.length) 1) MAX_LANES := by
        simp [MAX_LANES]
      generalize min (max (la.getD it.length) 1) MAX_LANES = requested at hb hm hp
      have hl := length_pos_of_ne_nil hn
      have hc := cut_toChunks (Nat.div_pos (by omega : requested ≤ it.length + requested - 1) hp) hn
      exact ⟨hc.flatten, hc.nonempty, (hc.length_le hp).trans hb⟩

/-- The lanes of a split concatenate to the items, none of them is empty and there are at most as many
as requested and as the engine allows; a scatter opens those lanes and records their number. -/
theorem scatter_lanes (items : List Item) (requested : Option Nat) :
    (split items requested).flatten = items ∧
    (∀ lane ∈ split items requested, lane ≠ []) ∧
    (split items requested).length ≤ laneBound requested ∧
    ∀ (ctx : ExecContext) (output : NodeOutput), scatterExecute ctx = .ok output →
      ∃ lanes, output.control = some (.scatter lanes) ∧ lanes.flatten = scatterItems ctx ∧
        (∀ lane ∈ lanes, lane ≠ []) ∧
        (∀ n, configNat ctx.node.config "lanes" = some n → 0 < n → lanes.length ≤ min n MAX_LANES) ∧
        lanes.length ≤ MAX_LANES ∧
        ((output.recorded.bind (·.get "lane_count")).bind Json.asU64).map (·.toNat) =
          some lanes.length := by
  obtain ⟨hflat, hne, hlen⟩ := split_spec items requested
  refine ⟨hflat, hne, hlen, ?_⟩
  intro ctx output hrun
  unfold scatterExecute at hrun
  split at hrun
  case isTrue => cases hrun
  case isFalse =>
    cases hrun
    obtain ⟨hflat, hne, hlen⟩ :=
      split_spec (scatterItems ctx) ((configNat ctx.node.config "lanes").filter (0 < ·))
    have hcap := hlen.trans (laneBound_le _)
    refine ⟨_, rfl, hflat, hne, ?_, hcap, ?_⟩
    · intro n hn hpos
      rw [hn, filter_some_pos (by simpa using hpos)] at hlen ⊢
      simpa [laneBound, Nat.max_eq_left hpos] using hlen
    · change some (UInt64.ofNat _).toNat = _
      rw [UInt64.toNat_ofNat_of_lt' (hcap.trans_lt (by decide))]

def fiveItems : ExecContext where
  node := { id := "s", kind := .scatter, config := .object [("lanes", .nat 2)] }
  input := (range 5).map fun i => { json := .nat i }
  run := .null
  nodes := .null
  lane := none
  resume := none
  step := 0

theorem scatter_lanes_fiveItems :
    ∃ output lanes, scatterExecute fiveItems = .ok output ∧ output.control = some (.scatter lanes) ∧
      lanes.flatten = fiveItems.input ∧ lanes.length ≤ 2 := by
  obtain ⟨lanes, hopen, hflat, -, hbound, -, -⟩ :=
    (scatter_lanes fiveItems.input (some 2)).2.2.2 fiveItems _ rfl
  exact ⟨_, lanes, rfl, hopen, hflat, hbound 2 (by decide) (by decide)⟩

/-- A request for no lanes still opens one. -/
theorem split_zero_lanes :
    ¬ ∀ (items : List Item) (n : Nat), (split items (some n)).length ≤ min n MAX_LANES := by
  intro h
  exact absurd (h [{ json := .null }] 0) (by decide)

/-! ## Mapping over the items -/

section Mapping
variable {Diagnostic : Type}

def succeeded (f : Nat → Except EngineError (MappedItem Diagnostic)) (index : Nat) : Option Item :=
  match f index with
  | .ok mapped => some (pairedWith mapped.1 index)
  | .error _ => none

def collected (f : Nat → Except EngineError (MappedItem Diagnostic)) (index : Nat) : Item :=
  match f index with
  | .ok mapped => pairedWith mapped.1 index
  | .error e => pairedWith (failedItem e.message) index

def diagnosed (f : Nat → Except EngineError (MappedItem Diagnostic)) (index : Nat) :
    List Diagnostic :=
  match f index with
  | .ok mapped => mapped.2
  | .error _ => []

variable {f : Nat → Except EngineError (MappedItem Diagnostic)}

theorem mapSequentially_collect (co) :
    ∀ ix, mapSequentially .collect f ix co =
      .ok ((range' ix co).map (collected f), (range' ix co).flatMap (diagnosed f)) := by
  induction co with
  | zero =>
    intro ix
    rfl
  | succ co ih =>
    intro ix
    rw [range'_succ]
    cases hf : f ix <;> simp [mapSequentially, ih, hf, Except.map, collected, diagnosed]

theorem mapSequentially_skip (co) :
    ∀ ix, mapSequentially .skip f ix co =
      .ok ((range' ix co).filterMap (succeeded f), (range' ix co).flatMap (diagnosed f)) := by
  induction co with
  | zero =>
    intro ix
    rfl
  | succ co ih =>
    intro ix
    rw [range'_succ]
    cases hf : f ix <;> simp [mapSequentially, ih, hf, Except.map, succeeded, diagnosed]

theorem mapSequentially_clean (count) :
    ∀ ix, (∀ i, ix ≤ i → i < ix + count → ∀ e, f i ≠ .error e) →
      mapSequentially .failFast f ix count = mapSequentially .collect f ix count := by
  induction count with
  | zero =>
    intro ix _
    rfl
  | succ count ih =>
    intro ix ho
    have hr := ih (ix + 1) fun i hi hi' => ho i (by omega) (by omega)
    cases hf : f ix with
    | ok ma => simp [mapSequentially, hf, hr]
    | error e => exact absurd hf (ho ix (Nat.le_refl _) (by omega) e)

/-- Whatever the bound and whatever order the futures complete in, a batch is the sequential one: failing
fast, the error is that of the first item to fail in input order and without a failure every output is
there; collecting, there is one output per input; skipping, there are the successes. All are in input
order and paired with their index. -/
theorem mapItems_completion_order (f : Nat → Except EngineError (MappedItem Diagnostic))
    (total concurrency : Nat) (policy : ItemErrorPolicy) (order : List Nat)
    (horder : Completes (MapOptions.inFlight ⟨concurrency, policy⟩ total) total [] 0 order) :
    mapItems total ⟨concurrency, policy⟩ f order = mapSequentially policy f 0 total ∧
    (policy = .failFast → ∀ i < total, ∀ e, f i = .error e → (∀ j < i, ∀ e', f j ≠ .error e') →
      mapItems total ⟨concurrency, policy⟩ f order = .error e) ∧
    (policy = .failFast → (∀ i < total, ∀ e, f i ≠ .error e) →
      mapItems total ⟨concurrency, policy⟩ f order =
        .ok ((range total).map (collected f), (range total).flatMap (diagnosed f))) ∧
    (policy = .collect → mapItems total ⟨concurrency, policy⟩ f order =
      .ok ((range total).map (collected f), (range total).flatMap (diagnosed f))) ∧
    (policy = .skip → mapItems total ⟨concurrency, policy⟩ f order =
      .ok ((range total).filterMap (succeeded f), (range total).flatMap (diagnosed f))) := by
  have hseq : mapItems total ⟨concurrency, policy⟩ f order = mapSequentially policy f 0 total :=
    mapItems_eq_sequential horder.perm_range
  simp only [hseq, range_eq_range']
  refine ⟨trivial, ?_, ?_, ?_, ?_⟩
  · rintro rfl i hi e hfail hbefore
    exact mapSequentially_failFast ⟨hi, hfail, hbefore⟩ total 0 (Nat.zero_le _) (by simpa using hi)
  · rintro rfl hok
    rw [mapSequentially_clean total 0 fun i _ hi => hok i (by omega)]
    exact mapSequentially_collect total 0
  · rintro rfl
    exact mapSequentially_collect total 0
  · rintro rfl
    exact mapSequentially_skip total 0

def middleFails (index : Nat) : Except EngineError (MappedItem Unit) :=
  if index = 1 then .error (.capability "no") else .ok ({ json := .nat index }, [])

theorem mapItems_completion_order_middleFails :
    Completes (MapOptions.inFlight ⟨0, .failFast⟩ 3) 3 [] 0 [2, 1, 0] ∧
      mapItems 3 ⟨0, .failFast⟩ middleFails [2, 1, 0] = .error (.capability "no") := by
  have horder : Completes (MapOptions.inFlight ⟨0, .failFast⟩ 3) 3 [] 0 [2, 1, 0] := by
    apply start (by decide) (by decide)
    apply start (by decide) (by decide)
    apply start (by decide) (by decide)
    apply finish (by decide)
    apply finish (by decide)
    apply finish (by decide)
    exact done
  refine ⟨horder, ?_⟩
  apply (mapItems_completion_order middleFails 3 0 .failFast [2, 1, 0] horder).2.1 rfl 1 (by decide) _ rfl
  intro j hj e
  have : j = 0 := by omega
  subst this
  exact nofun

/-! ## The ceiling of a run -/

def runItemCap (run : Json) : Option Nat :=
  ((((run.get "trigger").bind (·.get "max_item_concurrency")).bind Json.asU64).map (·.toNat)).filter
    (0 < ·)

def explicitPolicy (config : Json) : Option ItemErrorPolicy :=
  match (config.get "on_item_error").bind Json.asStr with
  | some "fail_fast" => some .failFast
  | some "skip" => some .skip
  | some "collect" => some .collect
  | _ => none

theorem itemErrorPolicy_eq (co run) :
    itemErrorPolicy co run = (explicitPolicy co).getD
      (if itemConcurrency co run = 1 then .failFast else .collect) := by
  unfold itemErrorPolicy explicitPolicy
  split <;> simp_all

def cappedBy (cap : Option Nat) (concurrency : Nat) : Nat :=
  match cap with
  | some cap =>
    if concurrency = 0 ∨ min cap MAX_CONCURRENCY < concurrency then min cap MAX_CONCURRENCY
    else concurrency
  | none => concurrency

theorem itemConcurrency_capped {co run run₀} (hc : runItemCap run₀ = none) :
    itemConcurrency co run = cappedBy (runItemCap run) (itemConcurrency co run₀) := by
  unfold runItemCap at hc
  cases h : runItemCap run with
  | none =>
    unfold runItemCap at h
    simp only [itemConcurrency, hc, h, cappedBy]
  | some cap =>
    unfold runItemCap at h
    simp only [itemConcurrency, hc, h, cappedBy]

theorem runItemCap_pos {run cap} (h : runItemCap run = some cap) : 0 < cap := by
  have := (filter_eq_some_iff.mp h).2
  simpa using this

theorem cappedBy_eq_one {cap co} (hc : ∀ n, cap = some n → 0 < n) :
    cappedBy cap co = 1 ↔ co = 1 ∨ cap = some 1 := by
  cases cap with
  | none => simp [cappedBy]
  | some cap =>
    have := hc cap rfl
    have hm : 1 < MAX_CONCURRENCY := by decide
    simp only [cappedBy, some.injEq]
    split <;> omega

theorem mapSequentially_policies {tt} :
    mapSequentially .failFast f 0 tt = mapSequentially .collect f 0 tt ↔
      ∀ i < tt, ∀ e, f i ≠ .error e := by
  constructor
  · intro he i hi e hf
    -- The lowest failing item decides the batch that fails fast; the other one collects it.
    have hl : ∃ i, i < tt ∧ ∃ e, f i = .error e := ⟨i, hi, e, hf⟩
    classical
    obtain ⟨ht, e', he'⟩ := Nat.find_spec hl
    have hF : FirstFails f tt (Nat.find hl) e' :=
      ⟨ht, he', fun j hj e'' hj' => Nat.find_min hl hj ⟨hj.trans ht, e'', hj'⟩⟩
    rw [mapSequentially_failFast hF tt 0 (Nat.zero_le _) (by simpa using ht),
      mapSequentially_collect] at he
    cases he
  · intro ho
    exact mapSequentially_clean tt 0 fun i _ hi => ho i (by omega)

/-- A ceiling leaves the result of a batch alone, unless it brings a node that names no policy down to
one item at a time and some item fails. -/
theorem mapItems_ceiling (f : Nat → Except EngineError (MappedItem Diagnostic)) (config run run₀ : Json)
    (total : Nat) (order order₀ : List Nat) (hcap : runItemCap run₀ = none)
    (horder : Completes ((mapOptions config run).inFlight total) total [] 0 order)
    (horder₀ : Completes ((mapOptions config run₀).inFlight total) total [] 0 order₀) :
    mapItems total (mapOptions config run) f order = mapItems total (mapOptions config run₀) f order₀ ↔
      ¬ (runItemCap run = some 1 ∧ itemConcurrency config run₀ ≠ 1 ∧ explicitPolicy config = none ∧
        ∃ i < total, ∃ e, f i = .error e) := by
  rw [mapItems_eq_sequential horder.perm_range, mapItems_eq_sequential horder₀.perm_range]
  have hone : itemConcurrency config run = 1 ↔
      itemConcurrency config run₀ = 1 ∨ runItemCap run = some 1 := by
    rw [itemConcurrency_capped hcap]
    exact cappedBy_eq_one fun n hn => runItemCap_pos hn
  simp only [mapOptions, itemErrorPolicy_eq]
  cases hpolicy : explicitPolicy config with
  | some policy => simp
  | none =>
    by_cases hown : itemConcurrency config run₀ = 1
    · simp [hone, hown]
    by_cases hcapped : runItemCap run = some 1
    · simp only [hone, hown, hcapped, getD_none, or_true, if_true, if_false,
        mapSequentially_policies]
      simp [hown]
    · simp [hone, hown, hcapped]

theorem mapItems_ceiling_four :
    mapItems 3 (mapOptions (.object [("concurrency", .nat 8)])
        (.object [("trigger", .object [("max_item_concurrency", .nat 4)])])) middleFails [0, 1, 2] =
      mapItems 3 (mapOptions (.object [("concurrency", .nat 8)]) .null) middleFails [0, 1, 2] :=
  (mapItems_ceiling middleFails (.object [("concurrency", .nat 8)])
    (.object [("trigger", .object [("max_item_concurrency", .nat 4)])]) .null 3 [0, 1, 2] [0, 1, 2] rfl
    (inOrder (by decide) 3 0 rfl) (inOrder (by decide) 3 0 rfl)).mpr
    fun h => absurd h.1 (by decide)

/-- A ceiling of one turns the collected failure into the failure of the batch. -/
theorem ceiling_fails_batch :
    ¬ ∀ (f : Nat → Except EngineError (MappedItem Unit)) (config run run₀ : Json) (total : Nat)
      (order order₀ : List Nat), runItemCap run₀ = none →
      Completes ((mapOptions config run).inFlight total) total [] 0 order →
      Completes ((mapOptions config run₀).inFlight total) total [] 0 order₀ →
      mapItems total (mapOptions config run) f order =
        mapItems total (mapOptions config run₀) f order₀ := by
  intro h
  have heq := h middleFails (.object [("concurrency", .nat 8)])
    (.object [("trigger", .object [("max_item_concurrency", .nat 1)])]) .null 3 [0, 1, 2] [0, 1, 2] rfl
    (inOrder (by decide) 3 0 rfl) (inOrder (by decide) 3 0 rfl)
  exact absurd heq (by decide)

end Mapping

end Tinyflows.Nodes
