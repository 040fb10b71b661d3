import Tinyflows.Graph.Lemmas.Channels
import Tinyflows.Graph.Resume
import Tinyflows.Graph.Theorems.Messages

/-!
# Concurrent writes and one-step values over whole runs

A super-step is told from the last one by its number alone. Each run counts from one, so a resumed run
may come to a super-step whose number the state it was left still remembers.
-/

namespace Tinyflows.Graph
open Lib ChannelState List

variable {V : Type}

/-- A super-step that the state can tell from the last one it has seen. -/
structure Distinguished (g : CompiledGraph ChannelState ChannelUpdate V)
    (rt : Runtime ChannelState ChannelUpdate V) (threadId : Option ThreadId)
    (l entered : Loop ChannelState V) (p : Progress ChannelUpdate V) : Prop where
  enter : enterStep g rt l = .ok entered
  run : runActive g rt threadId entered.steps entered.state entered.active
    { resumeMap := entered.resumeMap, visited := entered.visited } = .ok p
  unseen : l.state.currentStep ≠ l.steps + 1

/-- Along any run whose nodes stamp their updates, whatever loop it was started with, fresh or resumed:
in a super-step whose number the state does not remember, a merge reports a concurrent write exactly
where the update writes an overwrite channel that an update of another branch of the super-step has
written, unless an unknown channel comes first; and once the super-step has folded its updates, an
ephemeral channel holds nothing that the super-step did not write. The number the state remembers is one
the run has passed, or the one it started with. -/
theorem channel_super_steps (g : CompiledGraph ChannelState ChannelUpdate V)
    (rt : Runtime ChannelState ChannelUpdate V) (threadId : Option ThreadId)
    (start l : Loop ChannelState V) (hreducer : g.reducer = ChannelState.merge)
    (hstamps : rt.Stamps) (hplain : start.state.set.Plain) (hstart : start.steps = 0)
    (hl : l ∈ start :: boundaries g rt threadId (stepLimit g) start) :
    (l.state.currentStep ≤ l.steps ∨ l.state.currentStep = start.state.currentStep) ∧
    ∀ entered p, Distinguished g rt threadId l entered p →
      (∀ us u rest s, p.run.updates = us ++ u :: rest → applyUpdates g l.state us = .ok s →
        ∀ message, s.merge u = .error (.invalidConcurrentUpdate message) ↔
          ∃ before name after, u.distinct = before ++ name :: after ∧ Clashes start.state.set us name ∧
            concurrentWrites name 2 = .invalidConcurrentUpdate message ∧
            ∀ other ∈ before, Accepts start.state.set us other) ∧
      (p.run.updates ≠ [] → ∀ s, applyUpdates g l.state p.run.updates = .ok s →
        ∀ name, start.state.set.Ephemeral name → (∀ u ∈ p.run.updates, name ∉ u.names) →
          s.get name = none) := by
  have hremembers : Remembers start.state.currentStep start.state.set.channels l := by
    have hfirst : Remembers start.state.currentStep start.state.set.channels start := ⟨.inr rfl, rfl⟩
    rcases mem_cons.mp hl with rfl | hl
    · exact hfirst
    · exact boundaries_ind (fun _ _ h hnext => superStep_remembers hreducer hstamps h hnext) hfirst l hl
  obtain ⟨hseen, hchannels⟩ := hremembers
  refine ⟨hseen, ?_⟩
  intro entered p hstep
  have hstamped := runActive_stamps hstamps hstep.run
  obtain ⟨nodeVisits, rfl, -⟩ := enterStep_ok hstep.enter
  have hopen := opened_start hstep.unseen
  have hplain' : l.state.set.Plain := fun name channel h => hplain name channel (hchannels ▸ h)
  constructor
  · intro us u rest s hsplit hfold message
    have hmem : ∀ v ∈ us ++ u :: rest, v.step = some (l.steps + 1) := hsplit ▸ hstamped
    have hus := hopen.applyUpdates hreducer (fun v hv => hmem v (by simp [hv])) hfold
    have hiff := hus.merge_conflict (hmem u (by simp)) hplain' message
    simpa only [Clashes, Accepts, hchannels, nil_append] using hiff
  · intro hupdates s hfold name heph hunwritten
    have hall := hopen.applyUpdates hreducer hstamped hfold
    have hcurrent : s.currentStep = l.steps + 1 := by
      rcases (applyUpdates_remembers hreducer hstamped hfold).1 with h | ⟨h, -⟩
      · exact h
      · exact absurd h hupdates
    rw [enter_current hcurrent] at hall
    apply hall.cleared name _ (by simpa using hunwritten)
    simpa only [ChannelSet.Ephemeral, hchannels] using heph

/-! ## Two writers, and a writer that is resumed -/

def oneChannel : ChannelState :=
  { set := { channels := (∅ : HashMap String Channel).insert "v" .lastValue } }

def writeThenAsk : CompiledGraph ChannelState ChannelUpdate Unit where
  entry := "write"
  nodes := {"write", "ask"}
  edges := (∅ : HashMap NodeId NodeId).insert "write" "ask"
  reducer := ChannelState.merge
  recursionLimit := 4

def writesOnce (stamp : Nat → Option Nat) : Runtime ChannelState ChannelUpdate Unit where
  handler node _ _ ctx :=
    if node = "ask" ∧ ctx.resume = none then .ok (.interrupt { id := "i", node := "ask", payload := () })
    else .ok (.update { writes := [("v", .str node)], step := stamp ctx.step })

theorem writesOnce_stamps : (writesOnce some).Stamps := by
  intro node ix st ctx u hu
  simp only [writesOnce] at hu
  split_ifs at hu
  · cases hu
  · cases hu
    rfl

theorem oneChannel_plain : oneChannel.set.Plain := by
  intro name ch hl cu ic me
  by_cases hn : name = "v"
  · subst hn
    cases (Finmap.lookup_insert _).symm.trans hl
    exact nofun
  · rw [oneChannel, Finmap.lookup_insert_of_ne _ hn] at hl
    cases hl

def twoWriters : Loop ChannelState Unit :=
  freshLoop {} oneChannel [{ node := "write" }, { node := "write" }]

theorem channel_super_steps_twoWriters :
    ∃ s u, u.step = some 1 ∧ ChannelState.merge s u = .error (concurrentWrites "v" 2) := by
  have hsteps := channel_super_steps writeThenAsk (writesOnce some) none twoWriters twoWriters rfl
    writesOnce_stamps oneChannel_plain rfl mem_cons_self
  obtain ⟨hdetects, -⟩ := hsteps.2 _ _ ⟨rfl, rfl, by decide⟩
  refine ⟨_, _, rfl, (hdetects [_] _ [] _ rfl rfl _).mpr ⟨[], "v", [], rfl, ?_, rfl, by simp⟩⟩
  exact ⟨.lastValue, rfl, rfl, _, mem_singleton_self _, by decide⟩

/-- The two branches without a stamp: nothing is reported and the last write wins. And a writer that is
resumed: its super-step has one branch, and has the number of the super-step before the pause. -/
theorem conflict_by_number_only :
    ((runWithInputs writeThenAsk (writesOnce fun _ => none) {} (some "t") oneChannel
      [{ node := "write", payload := none }, { node := "write", payload := none }]).result.map
        fun e => e.state.get "v") = .ok (some (.str "write")) ∧
    (let paused := Graph.run writeThenAsk (writesOnce some) {} (some "t") oneChannel
     let resumed := resumeFrom writeThenAsk (writesOnce some) paused.store "t" .latest (some ())
     (paused.store.getScoped "t" none []).map (fun c => (pendingOf c).map (·.node)) = some ["ask"] ∧
       resumed.result.map (fun _ => ()) = .error (concurrentWrites "v" 2)) := by
  refine ⟨by decide, by decide, by decide⟩

/-! ## Channels do not mix -/

def ChannelUpdate.writesTo (u : ChannelUpdate) (name : String) : List Json :=
  (u.writes.filter (·.1 = name)).map Prod.snd

variable {nm : String} {ch : Channel}

theorem mergeAll_writes {s s' : ChannelSet} {wr}
    (hc : s.channels.lookup nm = some ch) (h : s.applyUpdates wr = .ok s') (rest) :
    ch.mergeAll (s.get nm) ((wr.filter (·.1 = nm)).map Prod.snd ++ rest) = ch.mergeAll (s'.get nm) rest := by
  induction wr generalizing s with
  | nil => cases h; rfl
  | cons w wr ih =>
    simp only [ChannelSet.applyUpdates] at h
    split at h
    · cases h
    · rename_i mid hm
      obtain ⟨hk, hg⟩ := ChannelSet.applyUpdate_ok hm
      rw [← ih (hk ▸ hc) h]
      by_cases hn : w.1 = nm
      · subst hn
        simp only [ChannelSet.applyUpdate, hc] at hm
        split at hm
        · cases hm
        · rename_i va hv
          cases hm
          simp [Channel.mergeAll, ChannelSet.get, hv]
      · rw [filter_cons_of_neg (by simpa using hn), hg nm (Ne.symm hn)]

theorem elements_mergeAll (hm : ch.merge = Channel.append) {v v' ws}
    (h : ch.mergeAll v ws = .ok v') :
    v'.elim [] Channel.elements = v.elim [] Channel.elements ++ ws.flatMap Channel.elements := by
  induction ws generalizing v with
  | nil => cases h; simp
  | cons w ws ih =>
    simp only [Channel.mergeAll, hm, Channel.append] at h
    cases v <;> simp [ih h, Channel.elements]

/-- After any updates, a channel that lasts holds what its rule makes of the writes to it, in order. So a
topic has lost none of them and has none twice. -/
theorem channel_folds_own_writes (us : List ChannelUpdate) (s s' : ChannelState) (nm : String)
    (h : us.foldlM merge s = .ok s') (hc : s.set.channels.lookup nm = some ch)
    (he : ch.isEphemeral = false) :
    ch.mergeAll (s.get nm) (us.flatMap (·.writesTo nm)) = .ok (s'.get nm) ∧
    (ch.merge = Channel.append → (s'.get nm).elim [] Channel.elements =
      (s.get nm).elim [] Channel.elements ++ (us.flatMap (·.writesTo nm)).flatMap Channel.elements) := by
  suffices hf : ch.mergeAll (s.get nm) (us.flatMap (·.writesTo nm)) = .ok (s'.get nm) from
    ⟨hf, fun hm => elements_mergeAll hm hf⟩
  induction us generalizing s with
  | nil => cases h; rfl
  | cons u us ih =>
    rw [foldlM_cons] at h
    cases hm : s.merge u with
    | error e => rw [hm] at h; cases h
    | ok t =>
      rw [hm] at h
      have hs := (merge_ok hm).2.1
      have hn : (s.enter u.step).set.channels = s.set.channels ∧ (s.enter u.step).get nm = s.get nm := by
        unfold enter
        split
        · split_ifs
          · simp [ChannelState.get, ChannelSet.get, ChannelSet.clearEphemeral, HashMap.lookup_retain, hc, he]
          · exact ⟨rfl, rfl⟩
        · exact ⟨rfl, rfl⟩
      rw [← hn.1] at hc
      rw [flatMap_cons, ← hn.2]
      exact (mergeAll_writes hc hs _).trans (ih t h ((ChannelSet.applyUpdates_ok hs).1 ▸ hc))

def logState : ChannelState :=
  { set := { channels := (∅ : HashMap String Channel).insert "log" .topic } }

def logWrites : List ChannelUpdate :=
  [{ writes := [("log", .str "a")] }, { writes := [("log", .str "b")] }]

theorem topic_keeps_writes : ∃ s, logWrites.foldlM merge logState = .ok s ∧
    (s.get "log").elim [] Channel.elements = [.str "a", .str "b"] :=
  ⟨_, rfl, (channel_folds_own_writes logWrites logState _ "log" rfl rfl rfl).2 rfl⟩

end Tinyflows.Graph
