import Mathlib.Data.Finset.Card
import Tinyflows.Cron.Tick

/-!
# What a tick does with its claims

The store may answer every call in any way. Whatever it answers, the tick dispatches all the claims it has
obtained or releases them all.
-/

namespace Tinyflows.Cron
open Lib List

/-! ## What is recorded -/

/-- What the tick was given and what it has done with it, each in order. A refill stands with the ids that
had been examined by then. -/
structure Ledger where
  batches : List (List CronJob) := []
  refills : List (List String × List CronJob) := []
  claimed : List String := []
  obtained : List OccurrenceClaim := []
  dispatched : List OccurrenceClaim := []
  released : List OccurrenceClaim := []
  deriving DecidableEq

def Ledger.record (l : Ledger) : (c : TickCall) → c.Reply → Ledger
  | .now, _ => l
  | .dueJobs _, .ok batch => { l with batches := l.batches ++ [batch] }
  | .dueJobs _, .error _ => l
  | .dueJobsExcluding _ _, .ok batch =>
    { l with batches := l.batches ++ [batch], refills := l.refills ++ [(l.claimed, batch)] }
  | .dueJobsExcluding _ _, .error _ => l
  | .claimDueOccurrence job _ _ _, .ok claim =>
    { l with claimed := l.claimed ++ [job.id], obtained := l.obtained ++ claim.toList }
  | .claimDueOccurrence job _ _ _, .error _ => { l with claimed := l.claimed ++ [job.id] }
  | .releaseOccurrence claim _, _ => { l with released := l.released ++ [claim] }
  | .spawn claim _, _ => { l with dispatched := l.dispatched ++ [claim] }

/-- Every call is entered with its reply. -/
def Records (l : Ledger) (c : TickCall) (reply : c.Reply) (l' : Ledger) : Prop :=
  l' = l.record c reply

abbrev tickTerms : Terms Ledger TickCall TickCall.Reply :=
  .alone Records fun _ => True

theorem leads_call {c A Q}
    (h : ∀ l re, A l → Q (l.record c re) re) : Leads tickTerms A (Ticks.call c) Q := by
  rintro l - hA _ - rfl re _ rfl
  exact ⟨trivial, trivial, h l re hA⟩

theorem leads_releaseAll (now cl l) :
    Leads tickTerms (· = l) (releaseAll now cl)
      (fun l' _ => l' = { l with released := l.released ++ cl }) := by
  induction cl generalizing l with
  | nil => exact Leads.pure fun _ _ hl => by simp [hl]
  | cons cm cl ih =>
    refine Leads.bind (leads_call (Q := fun l' _ => l' = { l with released := l.released ++ [cm] })
      fun _ _ hl => by rw [hl]; rfl) fun _ => ?_
    refine (ih _).weaken (fun _ _ hl => hl) fun _ _ _ hl => ?_
    simpa using hl

theorem leads_releaseClaims (cl l) :
    Leads tickTerms (· = l) (releaseClaims cl)
      (fun l' _ => l' = { l with released := l.released ++ cl }) :=
  Leads.bind (leads_call (Q := fun l' _ => l' = l) fun _ _ hl => hl) fun now =>
    leads_releaseAll now cl l

theorem leads_dispatchClaims (de cl co l) : Leads tickTerms (· = l) (dispatchClaims de cl co)
      (fun l' n => l' = { l with dispatched := l.dispatched ++ cl } ∧ n = co + cl.length) := by
  induction cl generalizing co l with
  | nil => exact Leads.pure fun _ _ hl => by simp [hl]
  | cons cm cl ih =>
    refine Leads.bind (leads_call (Q := fun l' _ => l' = { l with dispatched := l.dispatched ++ [cm] })
      fun _ _ hl => by rw [hl]; rfl) fun _ => ?_
    refine (ih _ _).weaken (fun _ _ hl => hl) fun _ _ _ hl => ?_
    simp only [append_assoc, singleton_append] at hl
    exact ⟨hl.1, by simp [hl.2]; omega⟩

/-! ## One batch -/

structure Holding (l : Ledger) (examined : List String) (selected : List OccurrenceClaim) : Prop where
  claimed : l.claimed = examined
  obtained : l.obtained = selected
  dispatched : l.dispatched = []
  released : l.released = []

structure LetGo (l : Ledger) : Prop where
  dispatched : l.dispatched = []
  released : l.released = l.obtained

structure Examined (limit : Nat) (jobs : List CronJob) (l l' : Ledger) : Prop where
  batches : l'.batches = l.batches
  refills : l'.refills = l.refills
  claimed : ∃ done, done <+: jobs ∧ l'.claimed = l.claimed ++ done.map (·.id) ∧
    (jobs ≠ [] → l.obtained.length < limit → done ≠ [])
  bounded : l.obtained.length ≤ limit → l'.obtained.length ≤ limit

variable {jo : List CronJob} {l l' : Ledger} {li : Nat}

theorem Examined.none (h : jo ≠ [] → ¬l.obtained.length < li) : Examined li jo l l :=
  ⟨rfl, rfl, ⟨[], nil_prefix, by simp, fun hj hr => absurd hr (h hj)⟩, id⟩

theorem Examined.cons {job mid} (h : Examined li jo mid l')
    (hb : mid.batches = l.batches) (hr : mid.refills = l.refills)
    (hc : mid.claimed = l.claimed ++ [job.id]) (ho : mid.obtained.length ≤ li) :
    Examined li (job :: jo) l l' where
  batches := h.batches.trans hb
  refills := h.refills.trans hr
  claimed := by
    obtain ⟨dn, hd, he, -⟩ := h.claimed
    refine ⟨job :: dn, (prefix_cons_inj job).mpr hd, ?_, fun _ _ => by simp⟩
    rw [he, hc]
    simp
  bounded _ := h.bounded ho

theorem leads_claimBatch (owner now li jo) {em selected} (h : Holding l em selected) :
    Leads tickTerms (· = l) (claimBatch owner now li jo em selected)
      (fun l' rs => Examined li jo l l' ∧ match rs with
        | .ok (em, selected) => Holding l' em selected
        | .error _ => LetGo l') := by
  induction jo generalizing l em selected with
  | nil =>
    refine Leads.pure ?_
    rintro _ - rfl
    exact ⟨.none (by simp), h⟩
  | cons job jo ih =>
    rw [claimBatch]
    split_ifs with hf
    · refine Leads.pure ?_
      rintro _ - rfl
      exact ⟨.none fun _ => by rw [h.obtained]; omega, h⟩
    · refine Leads.bind (leads_call (Q := fun l' rp => l' =
        l.record (.claimDueOccurrence job owner now OCCURRENCE_LEASE) rp)
        fun _ _ hl => by rw [hl]) fun rp => ?_
      have hr : l.obtained.length < li := by rw [h.obtained]; omega
      cases rp with
      | error error =>
        refine Leads.bind (leads_releaseClaims selected _) fun _ => Leads.pure ?_
        rintro _ - rfl
        refine ⟨⟨rfl, rfl, ⟨[job], by simp, rfl, by simp⟩, fun _ => hr.le⟩, h.dispatched, ?_⟩
        simp [Ledger.record, h.released, h.obtained]
      | ok claim =>
        have ho : claim.toList.length ≤ 1 := by cases claim <;> simp
        have hn : Holding (l.record (.claimDueOccurrence job owner now OCCURRENCE_LEASE) (.ok claim))
            (em ++ [job.id]) (selected ++ claim.toList) :=
          ⟨by simp [Ledger.record, h.claimed], by simp [Ledger.record, h.obtained], h.dispatched,
            h.released⟩
        refine (ih hn).weaken (fun _ _ hl => hl) fun l' rs _ hp => ⟨?_, hp.2⟩
        refine hp.1.cons rfl rfl rfl ?_
        simp only [Ledger.record, length_append]
        omega

/-! ## Batch after batch -/

/-- What holds at every point once there is a first batch: no more claims are held than it had jobs, and no
id is claimed more often than one batch names it. -/
structure Account (limit : Nat) (l : Ledger) : Prop where
  first : ∃ batch, l.batches.head? = some batch ∧ batch.length = limit
  bounded : l.obtained.length ≤ limit
  spread : ∀ id ∈ l.claimed, ∃ batch ∈ l.batches, l.claimed.count id ≤ (batch.map (·.id)).count id

def NewJobs (refill : List String × List CronJob) : Prop :=
  refill.2 ≠ [] ∧ ∀ job ∈ refill.2, job.id ∉ refill.1

structure Entering (limit : Nat) (batch : List CronJob) (l : Ledger) : Prop extends Account limit l where
  nonempty : batch ≠ []
  current : batch ∈ l.batches
  unexamined : ∀ job ∈ batch, job.id ∉ l.claimed
  fresh : ∀ refill ∈ l.refills, NewJobs refill
  distinct : l.refills.length ≤ l.claimed.toFinset.card
  room : l.obtained.length < limit

theorem Entering.examined {ba} (h : Entering li ba l) (he : Examined li ba l l') :
    Account li l' ∧ l'.refills.length < l'.claimed.toFinset.card := by
  obtain ⟨dn, hd, hc, hs⟩ := he.claimed
  refine ⟨⟨?_, he.bounded h.bounded, ?_⟩, ?_⟩
  · rw [he.batches]
    exact h.first
  · intro id hi
    rw [he.batches, hc, count_append]
    by_cases hb : id ∈ ba.map (·.id)
    · -- An id of this batch has not been claimed before.
      have hn : l.claimed.count id = 0 := by
        obtain ⟨job, hj, rfl⟩ := mem_map.mp hb
        exact count_eq_zero.mpr (h.unexamined job hj)
      refine ⟨ba, h.current, ?_⟩
      rw [hn, Nat.zero_add]
      exact (hd.map _).sublist.count_le id
    · have ho : (dn.map (·.id)).count id = 0 :=
        count_eq_zero.mpr fun hm => hb ((hd.map _).subset hm)
      rw [hc, mem_append] at hi
      rw [ho, Nat.add_zero]
      exact h.spread id (hi.resolve_right fun hm => hb ((hd.map _).subset hm))
  · rw [he.refills]
    refine h.distinct.trans_lt (Finset.card_lt_card ?_)
    cases dn with
    | nil => exact absurd rfl (hs h.nonempty h.room)
    | cons job dn =>
      have hn := h.unexamined job (hd.subset mem_cons_self)
      rw [hc, toFinset_append]
      refine Finset.ssubset_iff_of_subset Finset.subset_union_left |>.mpr ⟨job.id, by simp, ?_⟩
      simpa using hn

theorem Account.refill (h : Account li l) (now ec ba) :
    Account li (l.record (.dueJobsExcluding now ec) (.ok ba)) where
  first := by
    obtain ⟨first, hf, hl⟩ := h.first
    exact ⟨first, by simp [Ledger.record, head?_append, hf], hl⟩
  bounded := h.bounded
  spread id hi := by
    obtain ⟨na, hn, hc⟩ := h.spread id hi
    exact ⟨na, mem_append_left _ hn, hc⟩

/-- How a tick ends. It is unfinished only if every refill brought new jobs. -/
def Ended (rounds : Nat) (l : Ledger) : Option (Except String Nat) → Prop
  | some (.ok count) => l.dispatched = l.obtained ∧ l.released = [] ∧ count = l.obtained.length
  | some (.error _) => l.dispatched = [] ∧ l.released = l.obtained
  | none => l.refills.length = rounds ∧ (∀ refill ∈ l.refills, NewJobs refill) ∧
      rounds ≤ l.claimed.toFinset.card

section Loop

variable {li : Nat} {ba : List CronJob} {l : Ledger} {em : List String}
  {selected : List OccurrenceClaim}

theorem leads_dispatch (h : Account li l) (hold : Holding l em selected) (ro) :
    Leads tickTerms (· = l) (do return some (.ok (← dispatchClaims .requested selected 0)))
      (fun l' re => Account li l' ∧ Ended ro l' re) := by
  refine Leads.bind (leads_dispatchClaims .requested selected 0 l) fun co => Leads.pure ?_
  rintro _ - ⟨rfl, rfl⟩
  exact ⟨⟨h.first, h.bounded, h.spread⟩, by simp [hold.dispatched, hold.obtained], hold.released,
    by simp [hold.obtained]⟩

theorem leads_release (h : Account li l) (hold : Holding l em selected) (ro er) :
    Leads tickTerms (· = l) (do releaseClaims selected; return some (.error er))
      (fun l' re => Account li l' ∧ Ended ro l' re) := by
  refine Leads.bind (leads_releaseClaims selected l) fun _ => Leads.pure ?_
  rintro _ - rfl
  exact ⟨⟨h.first, h.bounded, h.spread⟩, hold.dispatched, by simp [hold.released, hold.obtained]⟩

theorem leads_claimRound (owner now) (h : Entering li ba l) (hold : Holding l em selected) {rn next}
    (hN : ∀ {ba l' em selected}, Entering li ba l' → Holding l' em selected →
      l'.refills.length = l.refills.length + 1 → Leads tickTerms (· = l') (next ba em selected)
        (fun l'' rs => Account li l'' ∧ Ended rn l'' rs)) :
    Leads tickTerms (· = l) (claimRound owner now li next ba em selected)
      (fun l' rs => Account li l' ∧ Ended rn l' rs) := by
  refine Leads.bind (leads_claimBatch owner now li ba hold) fun rs => ?_
  intro l' _ hc
  obtain ⟨hx, hr⟩ := hc
  obtain ⟨ha, hd⟩ := h.examined hx
  cases rs with
  | error error => exact ⟨ha, hr.dispatched, hr.released⟩
  | ok rs =>
    obtain ⟨em', selected'⟩ := rs
    dsimp only
    split_ifs with hu
    · exact leads_dispatch ha hr rn l' trivial rfl
    · refine Leads.bind (leads_call (A := (· = l')) (Q := fun l'' rp => l'' =
        l'.record (.dueJobsExcluding now em') rp) fun _ _ hl => by rw [hl])
        (fun rp => ?_) l' trivial rfl
      cases rp with
      | error error => exact leads_release ha hr rn error
      | ok rf =>
        have ha' := ha.refill now em' rf
        have hh : Holding (l'.record (.dueJobsExcluding now em') (.ok rf)) em'
            selected' :=
          ⟨hr.claimed, hr.obtained, hr.dispatched, hr.released⟩
        dsimp only
        split_ifs with hE hec
        · exact leads_dispatch ha' hh rn
        · exact leads_release ha' hh rn _
        · have hn : ∀ job ∈ rf, job.id ∉ l'.claimed := by
            intro job hj hm
            rw [hr.claimed] at hm
            exact hec (any_eq_true.mpr ⟨job, hj, by simpa using hm⟩)
          have hf : NewJobs (l'.claimed, rf) := ⟨by simpa using hE, hn⟩
          refine hN { ha' with
            nonempty := hf.1
            current := by simp [Ledger.record]
            unexamined := hn
            fresh := ?_
            distinct := ?_
            room := ?_ } hh (by simp [Ledger.record, hx.refills])
          · intro earlier he
            rcases mem_append.mp he with he | he
            · exact h.fresh earlier (hx.refills ▸ he)
            · rw [mem_singleton.mp he]
              exact hf
          · simp only [Ledger.record, length_append, length_singleton]
            exact hd
          · change l'.obtained.length < li
            rw [hr.obtained]
            omega

theorem leads_claimBatches (ow now ro) (h : Entering li ba l) (hold : Holding l em selected) :
    Leads tickTerms (· = l) (claimBatches ow now li ro ba em selected)
      (fun l' re => Account li l' ∧ Ended (l.refills.length + ro + 1) l' re) := by
  induction ro generalizing l ba em selected with
  | zero =>
    refine leads_claimRound ow now h hold fun he _ hr => Leads.pure ?_
    rintro _ - rfl
    exact ⟨he.toAccount, hr, he.fresh, hr ▸ he.distinct⟩
  | succ ro ih =>
    refine leads_claimRound ow now h hold fun he hh hr => ?_
    have hi := ih he hh
    rwa [hr, show l.refills.length + 1 + ro + 1 = l.refills.length + (ro + 1) + 1 by omega] at hi

end Loop

/-- A tick that has claimed nothing, or one that has worked through batches. -/
def Accounted (l : Ledger) : Prop :=
  (l.claimed = [] ∧ l.obtained = []) ∨ ∃ limit, Account limit l

theorem leads_tick (sc : Scheduler) (rn) :
    Leads tickTerms (· = {}) (sc.tick rn)
      (fun l rs => Accounted l ∧ Ended (rn + 1) l rs) := by
  rw [Scheduler.tick]
  split_ifs
  · refine Leads.pure ?_
    rintro _ - rfl
    exact ⟨.inl ⟨rfl, rfl⟩, rfl, rfl⟩
  · refine Leads.bind (leads_call (Q := fun l _ => l = {}) fun _ _ hl => hl) fun now => ?_
    refine Leads.bind (leads_call (Q := fun l rp => l = ({} : Ledger).record (.dueJobs now) rp)
      fun _ _ hl => by rw [hl]) fun rp => ?_
    cases rp with
    | error error =>
      refine Leads.pure ?_
      rintro _ - rfl
      exact ⟨.inl ⟨rfl, rfl⟩, rfl, rfl⟩
    | ok ba =>
      dsimp only
      split_ifs with he
      · refine Leads.pure ?_
        rintro _ - rfl
        exact ⟨.inl ⟨rfl, rfl⟩, rfl, rfl, rfl⟩
      · have hn : Entering ba.length ba (({} : Ledger).record (.dueJobs now) (.ok ba)) :=
          { first := ⟨ba, rfl, rfl⟩
            bounded := Nat.zero_le _
            spread := by simp [Ledger.record]
            nonempty := fun h => he (by simp [h])
            current := by simp [Ledger.record]
            unexamined := by simp [Ledger.record]
            fresh := by simp [Ledger.record]
            distinct := Nat.zero_le _
            room := Nat.pos_of_ne_zero he }
        refine (leads_claimBatches sc.owner now rn hn ⟨rfl, rfl, rfl, rfl⟩).weaken
          (fun _ _ hl => hl) fun l rs _ hp => ⟨.inr ⟨_, hp.1⟩, ?_⟩
        simpa [Ledger.record] using hp.2

/-- For every scheduler, however the store replies to each call: a finished tick has dispatched every claim
it obtained, once, or has released every one of them. It holds no more claims than the first batch had
jobs, claims no id more often than one of the batches names it (so at most once, if they repeat none), and
is unfinished only if every refill brought jobs and none that had been examined. -/
theorem tick_accounts (scheduler : Scheduler) (rounds : Nat) {result : Option (Except String Nat)}
    {l : Ledger} (h : (scheduler.tick rounds).Returns Records {} result l) :
    (match result with
      | some (.ok count) => l.dispatched = l.obtained ∧ l.released = [] ∧ count = l.obtained.length
      | some (.error _) => l.dispatched = [] ∧ l.released = l.obtained
      | none => l.refills.length = rounds + 1 ∧ rounds < l.claimed.toFinset.card ∧
          ∀ refill ∈ l.refills, refill.2 ≠ [] ∧ ∀ job ∈ refill.2, job.id ∉ refill.1) ∧
    l.obtained.length ≤ (l.batches.head?.getD []).length ∧
    (∀ id ∈ l.claimed, ∃ batch ∈ l.batches, l.claimed.count id ≤ (batch.map (·.id)).count id) ∧
    ((∀ batch ∈ l.batches, (batch.map (·.id)).Nodup) → l.claimed.Nodup) := by
  obtain ⟨-, haccounted, hended⟩ := (leads_tick scheduler rounds {} trivial rfl).returns trivial h
  refine ⟨?_, ?_, ?_⟩
  · match result, hended with
    | some (.ok _), hended => exact hended
    | some (.error _), hended => exact hended
    | none, ⟨hrefills, hfresh, hdistinct⟩ => exact ⟨hrefills, hdistinct, hfresh⟩
  · rcases haccounted with ⟨-, hnone⟩ | ⟨limit, haccount⟩
    · simp [hnone]
    · obtain ⟨first, hfirst, hlength⟩ := haccount.first
      simpa [hfirst, hlength] using haccount.bounded
  · have hspread : ∀ id ∈ l.claimed, ∃ batch ∈ l.batches,
        l.claimed.count id ≤ (batch.map (·.id)).count id := by
      rcases haccounted with ⟨hnone, -⟩ | ⟨limit, haccount⟩
      · simp [hnone]
      · exact haccount.spread
    refine ⟨hspread, fun hnodup => nodup_iff_count_le_one.mpr fun id => ?_⟩
    by_cases hid : id ∈ l.claimed
    · obtain ⟨batch, hbatch, hcount⟩ := hspread id hid
      exact hcount.trans (nodup_iff_count_le_one.mp (hnodup batch hbatch) id)
    · rw [count_eq_zero.mpr hid]
      exact Nat.zero_le 1

def hourly (id : String) : CronJob :=
  { id, schedule := .every 3600000, createdAt := 0, nextRun := 100 }

def answering (batch : List CronJob) (refused : String) (l : Ledger) (c : TickCall) : c.Reply × Ledger :=
  let reply : c.Reply := match c with
    | .now => 100
    | .dueJobs _ => .ok batch
    | .dueJobsExcluding _ _ => .ok []
    | .claimDueOccurrence job owner now _ => .ok (if job.id = refused then none else some
        { claim := { job, lease := {
            owner, token := "token", epoch := 1, incarnation := job.id, occurrence := 100
            startedAt := now, expiresAt := 7200100 } } })
    | .releaseOccurrence _ _ => .ok true
    | .spawn _ _ => ()
  (reply, l.record c reply)

def takenJob : Ledger :=
  ((({ stopped := false, owner := "worker" } : Scheduler).tick 0).after
    (answering [hourly "a", hourly "b"] "b") 6 {}).2

theorem tick_accounts_takenJob : takenJob.obtained.length = 1 ∧
    takenJob.dispatched = takenJob.obtained ∧ takenJob.released = [] := by
  have hreturns : (({ stopped := false, owner := "worker" } : Scheduler).tick 0).Returns Records {}
      (some (.ok 1)) takenJob :=
    Program.returns_after (fun _ _ => rfl) (by decide)
  obtain ⟨⟨hdispatched, hreleased, hcount⟩, -⟩ := tick_accounts _ 0 hreturns
  exact ⟨hcount.symm, hdispatched, hreleased⟩

def namedTwice : Ledger :=
  ((({ stopped := false, owner := "worker" } : Scheduler).tick 0).after
    (answering [hourly "a", hourly "a"] "b") 6 {}).2

theorem named_twice_claimed_twice :
    (({ stopped := false, owner := "worker" } : Scheduler).tick 0).Returns Records {}
      (some (.ok 2)) namedTwice ∧ namedTwice.claimed = ["a", "a"] :=
  ⟨Program.returns_after (fun _ _ => rfl) (by decide), by decide⟩

end Tinyflows.Cron
