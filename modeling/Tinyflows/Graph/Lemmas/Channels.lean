import Tinyflows.Graph.Channels
import Tinyflows.Graph.Lemmas.Contexts
import Tinyflows.Graph.Lemmas.Step

/-!
# Merging the updates of one super-step

Once a stamped update has opened a step, the counts say how many of its updates wrote each channel, no
overwrite channel has been written twice, and an ephemeral channel holds nothing from before.
-/

namespace Tinyflows.Graph
open Lib List ChannelSet

def ChannelUpdate.names (u : ChannelUpdate) : List String :=
  u.writes.map Prod.fst

theorem ChannelUpdate.distinct_spec (u : ChannelUpdate) :
    u.distinct.Nodup ∧ ∀ nm, nm ∈ u.distinct ↔ nm ∈ u.names := by
  have hf : ∀ (wt : List (String × Json)) (names : List String), names.Nodup →
      (wt.foldl (fun names w => if w.1 ∈ names then names else names ++ [w.1]) names).Nodup ∧
      ∀ nm, nm ∈ wt.foldl (fun names w => if w.1 ∈ names then names else names ++ [w.1]) names ↔
        nm ∈ names ∨ nm ∈ wt.map Prod.fst := by
    intro wt
    induction wt with
    | nil => exact fun names hn => ⟨hn, by simp⟩
    | cons w wt ih =>
      intro names hn
      rw [foldl_cons]
      by_cases hm : w.1 ∈ names
      · rw [if_pos hm]
        refine ⟨(ih names hn).1, fun nm => ?_⟩
        rw [(ih names hn).2, map_cons, mem_cons]
        constructor
        · rintro (h | h)
          · exact .inl h
          · exact .inr (.inr h)
        · rintro (h | rfl | h)
          · exact .inl h
          · exact .inl hm
          · exact .inr h
      · rw [if_neg hm]
        have ho : (names ++ [w.1]).Nodup := by
          refine nodup_append.mpr ⟨hn, by simp, ?_⟩
          rintro nm hN _ hw rfl
          exact hm (mem_singleton.mp hw ▸ hN)
        refine ⟨(ih _ ho).1, fun nm => ?_⟩
        rw [(ih _ ho).2]
        simp [or_assoc]
  obtain ⟨ho, hm⟩ := hf u.writes [] nodup_nil
  exact ⟨ho, fun nm => (hm nm).trans (by simp [names])⟩

/-! ## Values -/

namespace ChannelSet

variable {s s' : ChannelSet}

/-- A channel that is cleared when the step changes. -/
def Ephemeral (s : ChannelSet) (name : String) : Prop :=
  ∃ channel, s.channels.lookup name = some channel ∧ channel.isEphemeral = true

variable {nm : String}

theorem clearEphemeral_get (h : s.Ephemeral nm) : s.clearEphemeral.get nm = none := by
  obtain ⟨ch, hc, he⟩ := h
  simp [get, clearEphemeral, HashMap.lookup_retain, hc, he]

theorem applyUpdate_ok {va} (h : s.applyUpdate nm va = .ok s') :
    s'.channels = s.channels ∧ ∀ ot, ot ≠ nm → s'.get ot = s.get ot := by
  simp only [applyUpdate] at h
  split at h
  · cases h
  · split at h
    · cases h
    · cases h
      exact ⟨rfl, fun ot ho => Finmap.lookup_insert_of_ne _ ho⟩

theorem applyUpdates_ok {wr} (h : s.applyUpdates wr = .ok s') :
    s'.channels = s.channels ∧ ∀ nm, nm ∉ wr.map Prod.fst → s'.get nm = s.get nm := by
  induction wr generalizing s with
  | nil =>
    cases h
    exact ⟨rfl, fun _ _ => rfl⟩
  | cons w wr ih =>
    simp only [applyUpdates] at h
    split at h
    · cases h
    · rename_i mid hm
      obtain ⟨hc, hg⟩ := applyUpdate_ok hm
      obtain ⟨hc', hg'⟩ := ih h
      refine ⟨hc'.trans hc, fun nm hn => ?_⟩
      simp only [map_cons, mem_cons, not_or] at hn
      rw [hg' nm hn.2, hg nm hn.1]

/-- No merge rule reports a concurrent write itself. -/
def Plain (s : ChannelSet) : Prop :=
  ∀ name channel, s.channels.lookup name = some channel →
    ∀ current incoming message, channel.merge current incoming ≠ .error (.invalidConcurrentUpdate message)

theorem Plain.applyUpdates (h : s.Plain) (wr me) :
    s.applyUpdates wr ≠ .error (.invalidConcurrentUpdate me) := by
  induction wr generalizing s with
  | nil => exact nofun
  | cons w wr ih =>
    simp only [applyUpdates]
    split
    · rename_i e he
      intro hq
      cases hq
      simp only [applyUpdate] at he
      split at he
      · cases he
      · rename_i ch hc
        split at he
        · rename_i e' he'
          cases he
          exact h w.1 ch hc _ _ _ he'
        · cases he
    · rename_i mid hm
      exact ih fun nm ch hl => h nm ch ((applyUpdate_ok hm).1 ▸ hl)

end ChannelSet

namespace ChannelState

theorem countWrites_getD (na) (ha : na.Nodup) :
    ∀ (co : HashMap String Nat) (nm : String),
      ((countWrites co na).lookup nm).getD 0 =
        (co.lookup nm).getD 0 + if nm ∈ na then 1 else 0 := by
  induction na with
  | nil => simp [countWrites]
  | cons n na ih =>
    intro co nm
    obtain ⟨hn, ha⟩ := nodup_cons.mp ha
    have hr := ih ha (co.insert n ((co.lookup n).getD 0 + 1)) nm
    rw [countWrites, foldl_cons]
    rw [countWrites] at hr
    rw [hr]
    by_cases he : nm = n
    · subst he
      simp [hn]
    · simp [Finmap.lookup_insert_of_ne _ he, he]

def rejects (s : ChannelState) (name : String) : Option GraphError :=
  match s.set.channels.lookup name with
  | none => some (unknownChannel name)
  | some channel =>
    if 0 < (s.stepWrites.lookup name).getD 0 ∧ channel.allowsConcurrent = false then
      some (concurrentWrites name ((s.stepWrites.lookup name).getD 0 + 1))
    else none

theorem validate_eq (s : ChannelState) (na) :
    s.validate na = match na.findSome? s.rejects with
      | some e => .error e
      | none => .ok () := by
  induction na with
  | nil => rfl
  | cons nm na ih =>
    simp only [validate, allowsConcurrent, findSome?_cons, rejects]
    cases s.set.channels.lookup nm with
    | none => rfl
    | some ch =>
      dsimp only
      by_cases hc : 0 < (s.stepWrites.lookup nm).getD 0 ∧ ch.allowsConcurrent = false
      · simp [hc]
      · have : ¬ (1 < (s.stepWrites.lookup nm).getD 0 + 1 ∧ ch.allowsConcurrent = false) := by
          simpa using hc
        simp only [this, hc, if_false]
        exact ih

/-! ## One step -/

structure Opened (n : Nat) (s₀ : ChannelState) (us : List ChannelUpdate) (s : ChannelState) : Prop where
  step : s.currentStep = n
  channels : s.set.channels = s₀.set.channels
  counts : ∀ name, (s.stepWrites.lookup name).getD 0 = us.countP (name ∈ ·.names)
  once : ∀ name channel, s.set.channels.lookup name = some channel → channel.allowsConcurrent = false →
    us.countP (name ∈ ·.names) ≤ 1
  cleared : ∀ name, s₀.set.Ephemeral name → (∀ u ∈ us, name ∉ u.names) → s.get name = none

variable {n : Nat} {s₀ s s' : ChannelState} {u : ChannelUpdate} {us : List ChannelUpdate}

theorem opened_start (h : s₀.currentStep ≠ n) : Opened n s₀ [] (s₀.enter (some n)) := by
  simp only [enter, if_pos (Ne.symm h)]
  refine ⟨rfl, rfl, by simp, by simp, ?_⟩
  intro nm he _
  exact clearEphemeral_get he

theorem enter_current (h : s.currentStep = n) : s.enter (some n) = s := by
  simp [enter, h]

theorem merge_ok (h : s.merge u = .ok s') : (∀ nm ∈ u.distinct, (s.enter u.step).rejects nm = none) ∧
    (s.enter u.step).set.applyUpdates u.writes = .ok s'.set ∧
    s'.currentStep = (s.enter u.step).currentStep ∧
    s'.stepWrites = countWrites (s.enter u.step).stepWrites u.distinct := by
  simp only [merge, validate_eq] at h
  cases hf : u.distinct.findSome? (s.enter u.step).rejects with
  | some e =>
    rw [hf] at h
    cases h
  | none =>
    rw [hf] at h
    dsimp only at h
    split at h
    · cases h
    · rename_i set hs
      cases h
      exact ⟨findSome?_eq_none_iff.mp hf, hs, rfl, rfl⟩

theorem Opened.merge (h : Opened n s₀ us (s.enter (some n))) (hm : u.step = some n)
    (he : s.merge u = .ok s') : Opened n s₀ (us ++ [u]) s' := by
  obtain ⟨ha, hs, ht, hc⟩ := merge_ok he
  rw [hm] at ha hs ht hc
  obtain ⟨hh, hg⟩ := applyUpdates_ok hs
  obtain ⟨ho, hM⟩ := u.distinct_spec
  have hC : ∀ nm, (us ++ [u]).countP (nm ∈ ·.names) =
      us.countP (nm ∈ ·.names) + if nm ∈ u.distinct then 1 else 0 := by
    intro nm
    simp [countP_append, countP_cons, hM]
  refine ⟨ht.trans h.step, hh.trans h.channels, ?_, ?_, ?_⟩
  · intro nm
    rw [hc, countWrites_getD _ ho, h.counts, hC]
  · intro nm ch hl hal
    rw [hC]
    rw [hh] at hl
    split_ifs with hn
    · -- The check let the channel pass, so no update of the step had written it.
      have hat := ha nm hn
      simp only [rejects, hl, h.counts, hal, and_true] at hat
      split_ifs at hat
      omega
    · exact h.once nm ch hl hal
  · intro nm hp hu
    have hn : nm ∉ u.names := hu u (by simp)
    have hb := h.cleared nm hp fun v hv => hu v (by simp [hv])
    exact (hg nm hn).trans hb

theorem Opened.applyUpdates {V} {g : CompiledGraph ChannelState ChannelUpdate V}
    (hr : g.reducer = ChannelState.merge) (hs : ∀ u ∈ us, u.step = some n) :
    ∀ {dn : List ChannelUpdate} {s s' : ChannelState}, Opened n s₀ dn (s.enter (some n)) →
      applyUpdates g s us = .ok s' → Opened n s₀ (dn ++ us) (s'.enter (some n)) := by
  induction us with
  | nil =>
    intro dn s s' h hf
    cases hf
    simpa using h
  | cons u us ih =>
    intro dn s s' h hf
    simp only [Graph.applyUpdates, hr] at hf
    split at hf
    · cases hf
    · rename_i mid hm
      have ho := h.merge (hs u mem_cons_self) hm
      have hR := ih (fun v hv => hs v (mem_cons_of_mem _ hv)) (by rwa [enter_current ho.step]) hf
      simpa using hR

/-- The channel takes one write a step, and an update of the step has written it. -/
def Clashes (set : ChannelSet) (us : List ChannelUpdate) (name : String) : Prop :=
  ∃ channel, set.channels.lookup name = some channel ∧ channel.allowsConcurrent = false ∧
    ∃ u ∈ us, name ∈ u.names

/-- The channel is there, and open to one more write of the step. -/
def Accepts (set : ChannelSet) (us : List ChannelUpdate) (name : String) : Prop :=
  (set.channels.lookup name).isSome ∧ ¬ Clashes set us name

theorem Opened.rejects_eq (h : Opened n s₀ us s) (nm) :
    (s.rejects nm = none ↔ Accepts s₀.set us nm) ∧
    ∀ message, s.rejects nm = some (.invalidConcurrentUpdate message) ↔
      Clashes s₀.set us nm ∧ concurrentWrites nm 2 = .invalidConcurrentUpdate message := by
  have ho := h.once nm
  simp only [rejects, Accepts, h.counts, h.channels] at ho ⊢
  cases hl : s₀.set.channels.lookup nm with
  | none =>
    have hn : ¬ Clashes s₀.set us nm := by
      rintro ⟨ch, hh, -, -⟩
      rw [hl] at hh
      cases hh
    simp [unknownChannel, hn]
  | some ch =>
    have hs : Clashes s₀.set us nm ↔
        0 < us.countP (nm ∈ ·.names) ∧ ch.allowsConcurrent = false := by
      simp [Clashes, hl, countP_pos_iff, and_comm]
    by_cases hc : 0 < us.countP (nm ∈ ·.names) ∧ ch.allowsConcurrent = false
    · have he : us.countP (nm ∈ ·.names) = 1 := by
        have := ho ch hl hc.2
        omega
      simp [hs, hc.2, he]
    · simp only [if_neg hc, hs.not.mpr hc]
      simp

theorem Opened.merge_conflict (h : Opened n s₀ us (s.enter (some n))) (ht : u.step = some n)
    (hp : s₀.set.Plain) (me : String) : s.merge u = .error (.invalidConcurrentUpdate me) ↔
      ∃ be nm after, u.distinct = be ++ nm :: after ∧ Clashes s₀.set us nm ∧
        concurrentWrites nm 2 = .invalidConcurrentUpdate me ∧
        ∀ ot ∈ be, Accepts s₀.set us ot := by
  have hp' : (s.enter (some n)).set.Plain := by
    intro nm ch hl
    exact hp nm ch (h.channels ▸ hl)
  have hv : s.merge u = .error (.invalidConcurrentUpdate me) ↔
      u.distinct.findSome? (s.enter (some n)).rejects = some (.invalidConcurrentUpdate me) := by
    simp only [ChannelState.merge, ht, validate_eq]
    cases u.distinct.findSome? (s.enter (some n)).rejects with
    | some e => simp
    | none =>
      have hw := hp'.applyUpdates u.writes me
      dsimp only
      split <;> simp_all
  rw [hv, findSome?_eq_some_iff]
  constructor
  · rintro ⟨be, nm, after, hs, hr, hb⟩
    obtain ⟨hc, hm⟩ := ((h.rejects_eq nm).2 me).mp hr
    exact ⟨be, nm, after, hs, hc, hm, fun ot ho => (h.rejects_eq ot).1.mp (hb ot ho)⟩
  · rintro ⟨be, nm, after, hs, hc, hm, hb⟩
    exact ⟨be, nm, after, hs, ((h.rejects_eq nm).2 me).mpr ⟨hc, hm⟩,
      fun ot ho => (h.rejects_eq ot).1.mpr (hb ot ho)⟩

end ChannelState

variable {V : Type} {g : CompiledGraph ChannelState ChannelUpdate V}
  {rt : Runtime ChannelState ChannelUpdate V} {ti : Option ThreadId}

/-- Every update carries the step it was made in. -/
def Runtime.Stamps (rt : Runtime ChannelState ChannelUpdate V) : Prop :=
  ∀ node index state ctx u,
    (Fate.ofResult (rt.handler node index state ctx)).update = some u → u.step = some ctx.step

theorem runActive_stamps (hm : rt.Stamps) {step st ac resumeMap visited p}
    (h : runActive g rt ti step st ac { resumeMap, visited } = .ok p) :
    ∀ u ∈ p.run.updates, u.step = some step := by
  obtain ⟨fa, he, hr⟩ := runActive_perm h
  intro u hu
  rw [hr, foldl_add_updates] at hu
  obtain ⟨ft, hf, hp⟩ := mem_filterMap.mp (by simpa using hu)
  obtain ⟨i, hi, hg⟩ := mem_iff_getElem.mp (he.mem_iff.mp hf)
  obtain ⟨started, hs, ho⟩ :=
    @branchFates_started _ _ _ g rt ti step st ac resumeMap i (branchFates_length ▸ hi)
  obtain rfl : ft = started := by
    rw [getElem?_eq_getElem hi, hg] at hs
    exact Option.some.inj hs
  rcases ho with rfl | ⟨a, value, ctx, -, -, hc, rfl⟩
  · cases hp
  · rw [hm _ _ _ ctx u hp, hc.step]

/-! ## Steps of a run -/

def Remembers (k : Nat) (channels : HashMap String Channel) (l : Loop ChannelState V) : Prop :=
  (l.state.currentStep ≤ l.steps ∨ l.state.currentStep = k) ∧ l.state.set.channels = channels

variable {s s' : ChannelState}

theorem merge_remembers {u} (h : s.merge u = .ok s') {n} (hm : u.step = some n) :
    s'.currentStep = n ∧ s'.set.channels = s.set.channels := by
  obtain ⟨-, hs, ht, -⟩ := ChannelState.merge_ok h
  rw [hm] at hs ht
  rw [ht, (applyUpdates_ok hs).1]
  simp only [ChannelState.enter]
  split_ifs with ha
  · exact ⟨rfl, rfl⟩
  · exact ⟨(not_ne_iff.mp ha).symm, rfl⟩

theorem applyUpdates_remembers (hr : g.reducer = ChannelState.merge) {n us}
    (hm : ∀ u ∈ us, u.step = some n) (h : applyUpdates g s us = .ok s') :
    (s'.currentStep = n ∨ us = [] ∧ s'.currentStep = s.currentStep) ∧
      s'.set.channels = s.set.channels := by
  induction us generalizing s with
  | nil =>
    cases h
    exact ⟨.inr ⟨rfl, rfl⟩, rfl⟩
  | cons u us ih =>
    simp only [applyUpdates, hr] at h
    split at h
    · cases h
    · rename_i mid hi
      obtain ⟨hs, hc⟩ := merge_remembers hi (hm u mem_cons_self)
      obtain ⟨hs', hc'⟩ := ih (fun v hv => hm v (mem_cons_of_mem _ hv)) h
      refine ⟨.inl ?_, hc'.trans hc⟩
      rcases hs' with hs' | ⟨-, hs'⟩
      · exact hs'
      · exact hs'.trans hs

theorem superStep_remembers (he : g.reducer = ChannelState.merge) (hs : rt.Stamps) {k ch l m}
    (h : Remembers k ch l) (hp : superStep g rt ti l = .next m) : Remembers k ch m := by
  obtain ⟨en, p, state, hr, -, -, ho⟩ := superStep_next hp
  obtain ⟨nx, barriers, wt, d, id, -, -, -, rfl⟩ := loopBoundary_next ho
  obtain ⟨nv, rfl, -⟩ := enterStep_ok hr.enter
  obtain ⟨hc, hh⟩ :=
    applyUpdates_remembers he (runActive_stamps hs hr.run) hr.fold
  obtain ⟨hb, hb'⟩ := h
  refine ⟨?_, hh.trans hb'⟩
  change state.currentStep ≤ l.steps + 1 ∨ state.currentStep = k
  dsimp only at hc
  omega

end Tinyflows.Graph
