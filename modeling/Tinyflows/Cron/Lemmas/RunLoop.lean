import Tinyflows.Cron.RunLoop

/-!
# The work keeps to the order of its callbacks

The work knows its own events exactly. Of the loop's it knows that none was a failed renewal as long as
it has not been stopped.
-/

namespace Tinyflows.Cron
open Lib Relation List RunEvent Callback

/-! ## The work's own events -/

def ownEvents (trace : List RunEvent) : List RunEvent :=
  trace.filter (·.own)

section Own

variable {t : List RunEvent}

variable {e : RunEvent}

theorem starts_of_not_own (h : e.own = false) (k) : e.starts k = false := by
  cases e with
  | renewed r => rfl
  | _ => cases h

theorem attemptReply?_of_not_own (h : e.own = false) : e.attemptReply? = none := by
  cases e with
  | renewed r => rfl
  | _ => cases h

theorem forall_own {P : RunEvent → Prop} (hP : ∀ e, e.own = false → P e) :
    (∀ e ∈ t, P e) ↔ ∀ e ∈ ownEvents t, P e := by
  constructor
  · exact fun h e he => h e (mem_of_mem_filter he)
  · intro h e he
    cases ho : e.own with
    | false => exact hP e ho
    | true => exact h e (mem_filter.mpr ⟨he, ho⟩)

theorem attemptCount_own (t) : attemptCount (ownEvents t) = attemptCount t := by
  rw [attemptCount, attemptCount, ownEvents, countP_filter]
  refine countP_congr fun e _ => ?_
  cases ho : e.own with
  | false => simp [starts_of_not_own ho]
  | true => simp

theorem noneStarted_own {ki : List Kind} : NoneStarted ki t ↔ NoneStarted ki (ownEvents t) :=
  forall_own fun _ h k _ => starts_of_not_own h k

theorem attemptReplies_own (t) : (ownEvents t).filterMap attemptReply? = t.filterMap attemptReply? := by
  rw [ownEvents, filterMap_filter]
  refine filterMap_congr fun e _ => ?_
  cases ho : e.own with
  | false => simp [attemptReply?_of_not_own ho]
  | true => simp

theorem lastAttempt_own {a} : LastAttempt t a ↔ LastAttempt (ownEvents t) a := by
  rw [LastAttempt, LastAttempt, attemptReplies_own]

theorem ends_of_not_own (h : e.own = false) : e.ends = false := by
  rw [ends, attemptReply?_of_not_own h]
  rfl

end Own

/-! ## Rules -/

def LoopKept (d : Driver) (t : List RunEvent) : Prop :=
  d = .renewing → ∀ e ∈ t, e.own = false → e.lost = false

structure RunInv (d : Driver) (retries : Nat) (s : RunState) : Prop where
  orderly : Orderly d retries s.trace
  kept : s.stop = false → LoopKept d s.trace

variable {d : Driver} {rt : Nat}

abbrev runTerms (d : Driver) (retries : Nat) : Terms RunState RuntimeCall RuntimeCall.Reply :=
  (runLoop d).terms (RunInv d retries)

variable {e : RunEvent} {t : List RunEvent} {s s' : RunState} {ki : List Kind} {a : Attempt}
  {ri : String} {now : Int}

theorem Orderly.snoc (h : Orderly d rt t) (he : ∀ c, e = .started c → MayStart d rt t c) :
    Orderly d rt (t ++ [e]) := by
  intro be c af hq
  rcases eq_nil_or_concat af with rfl | ⟨af, e', rfl⟩
  · obtain ⟨rfl, hl⟩ := append_inj' hq rfl
    exact he c (List.cons.inj hl).1
  · have hq' : t ++ [e] = (be ++ .started c :: af) ++ [e'] := by
      rw [hq, concat_eq_append, append_assoc, cons_append]
    exact h be c af (append_inj' hq' rfl).1

theorem LoopKept.snoc (h : LoopKept d t) (he : e.own = true) : LoopKept d (t ++ [e]) := by
  intro hd e' he' ho
  rcases mem_append.mp he' with he' | he'
  · exact h hd e' he' ho
  · rw [mem_singleton.mp he', he] at ho
    cases ho

theorem ownEvents_snoc (he : e.own = true) : ownEvents (t ++ [e]) = ownEvents t ++ [e] := by
  rw [ownEvents, filter_append, ← ownEvents, filter_cons_of_pos he, filter_nil]

theorem RunInv.moves (h : RunInv d rt s) (hm : LoopMoves d s s') : RunInv d rt s' := by
  cases hm with
  | beat r hw hr =>
    refine ⟨h.orderly.snoc fun c hc => (by cases hc), fun hs hd e he ho => ?_⟩
    have hs' : s.stop = false ∧ confirmed r = true := by simpa [hd] using hs
    rcases mem_append.mp he with he | he
    · exact h.kept hs'.1 hd e he ho
    · rw [mem_singleton.mp he, lost, hs'.2]
      rfl
  | cancel hw => exact ⟨h.orderly, fun hs => (by cases hs)⟩
  | stop => exact ⟨h.orderly, fun hs => (by cases hs)⟩

/-- The loop adds only events of its own, and none while the work does not wait. -/
structure LoopGrows (s s' : RunState) : Prop where
  own : ownEvents s'.trace = ownEvents s.trace
  more : ∃ es, s'.trace = s.trace ++ es
  waiting : s'.waiting = s.waiting
  still : s.waiting = false → s'.trace = s.trace

theorem loopGrows_moves (h : ReflTransGen (LoopMoves d) s s') : LoopGrows s s' := by
  induction h with
  | refl => exact ⟨rfl, ⟨[], (append_nil _).symm⟩, rfl, fun _ => rfl⟩
  | tail _ hp ih =>
    obtain ⟨ho, ⟨es, hm⟩, ha, hs⟩ := ih
    cases hp with
    | beat r hw hr =>
      refine ⟨?_, ⟨es ++ [.renewed r], by rw [hm, append_assoc]⟩, ha, fun h => ?_⟩
      · rw [ownEvents, filter_append, ← ownEvents, ho]
        exact append_nil _
      · rw [ha, h] at hw
        cases hw
    | cancel hw => exact ⟨ho, ⟨es, hm⟩, ha, hs⟩
    | stop => exact ⟨ho, ⟨es, hm⟩, ha, hs⟩

structure Polled (o : List RunEvent) (G : List RunEvent → Prop) (s : RunState) : Prop where
  own : ownEvents s.trace = o
  waiting : s.waiting = false
  all : G s.trace

variable {o : List RunEvent} {G B : List RunEvent → Prop} {E : RunState → Prop}

theorem Polled.moves (h : Polled o G s) (hm : ReflTransGen (LoopMoves d) s s') : Polled o G s' := by
  obtain ⟨ho, -, hw, hs⟩ := loopGrows_moves hm
  exact ⟨ho.trans h.own, hw.trans h.waiting, (hs h.waiting).symm ▸ h.all⟩

theorem ensures_look {c} {Q : c.Reply → List RunEvent → Prop}
    (h : ∀ s r s', RunInv d rt s → Polled o G s → RunServes s c r s' → s' = s ∧ Q r s.trace) :
    Ensures (runTerms d rt) (Polled o G) (Runtime.call c) (fun s r => Polled o (Q r) s) E := by
  intro s _ hs t ht hr r u he
  have hp := hs.moves hr
  obtain ⟨rfl, hQ⟩ := h t r u ht hp he
  exact ⟨trivial, ht, hp.own, hp.waiting, hQ⟩

theorem ensures_now : Ensures (runTerms d rt) (Polled o G) (Runtime.call .now)
    (fun s _ => Polled o G s) E :=
  ensures_look fun s r s' _ hs he => by cases he; exact ⟨rfl, hs.all⟩

theorem ensures_drawUuid : Ensures (runTerms d rt) (Polled o G) (Runtime.call .uuid)
    (fun s _ => Polled o G s) E :=
  ensures_look fun s r s' _ hs he => by cases he; exact ⟨rfl, hs.all⟩

theorem ensures_cancelled : Ensures (runTerms d rt) (Polled o G) (Runtime.call .cancelled)
    (fun s _ => Polled o G s) E :=
  ensures_look fun s r s' _ hs he => by cases he; exact ⟨rfl, hs.all⟩

theorem ensures_stopped : Ensures (runTerms d rt) (Polled o G) (Runtime.call .stopped)
    (fun s r => Polled o (fun t => G t ∧ (r = false → LoopKept d t)) s) E :=
  ensures_look fun s r s' hi hs he => by
    cases he
    exact ⟨rfl, hs.all, hi.kept⟩

theorem ensures_unlessStopped {α Q} {p : Runtime (Option α)} (hQ : ∀ s, s.waiting = false → Q s none)
    (h : Ensures (runTerms d rt) (Polled o fun t => G t ∧ LoopKept d t) p Q E) :
    Ensures (runTerms d rt) (Polled o G) (do if ← Runtime.call .stopped then return none else p) Q E := by
  refine .bind ensures_stopped fun st => ?_
  cases st with
  | true => exact .pure fun s _ h => hQ s h.waiting
  | false => exact h.pre fun s _ h => ⟨h.own, h.waiting, h.all.1, h.all.2 rfl⟩

theorem ensures_await {c} (hm : ∀ t, ownEvents t = o → G t → MayStart d rt t c)
    (hB : ∀ t es, ownEvents t = o → G t → B (t ++ es)) :
    Ensures (runTerms d rt) (Polled o G) (Runtime.await c)
      (fun s r => Polled (o ++ [.started c, .replied c r]) B s) E := by
  intro s _ hs t ht hr _ u he
  have hp := hs.moves hr
  cases he
  refine ⟨trivial, ⟨ht.orderly.snoc ?_, fun hS => (ht.kept hS).snoc rfl⟩, ?_⟩
  · rintro c' hq
    cases hq
    exact hm _ hp.own hp.all
  · intro t' ht' hr' r u' he'
    obtain ⟨ho, ⟨es, hM⟩, -, -⟩ := loopGrows_moves hr'
    cases he'
    refine ⟨trivial, ⟨ht'.orderly.snoc fun c' hq => (by cases hq),
      fun hS => (ht'.kept hS).snoc rfl⟩, ?_, rfl, ?_⟩
    · rw [ownEvents_snoc rfl, ho, ownEvents_snoc rfl, hp.own, append_assoc]
      rfl
    · dsimp only
      rw [hM, append_assoc, append_assoc]
      exact hB _ _ hp.own hp.all

/-! ## Phases of the work -/

structure Executing (n : Nat) (o : List RunEvent) : Prop where
  count : attemptCount o = n
  going : ∀ e ∈ o, e.ends = false
  unstarted : NoneStarted [.failed, .send, .deliver, .complete] o
  kept : ∀ e ∈ o, e.lost = false

structure Executed (runId : String) (a : Attempt) (o : List RunEvent) : Prop where
  last : LastAttempt o a
  settled : ∃ e ∈ o, e.settles
  reported : a.success ∨ .replied (.failed runId a) () ∈ o
  unstarted : NoneStarted [.send, .deliver, .complete] o
  kept : ∀ e ∈ o, e.lost = false

theorem noneStarted_append {t'} :
    NoneStarted ki (t ++ t') ↔ NoneStarted ki t ∧ NoneStarted ki t' := by
  simp only [NoneStarted, forall_mem_append]

theorem NoneStarted.subset {ki'} (h : NoneStarted ki t) (hs : ki' ⊆ ki) : NoneStarted ki' t :=
  fun e he k hk => h e he k (hs hk)

theorem noneLost (ho : ownEvents t = o) (hk : ∀ e ∈ o, e.lost = false) (hp : LoopKept d t) :
    NoneLost d t := by
  intro e he hl
  cases he' : e.own with
  | true =>
    have hm : e ∈ o := ho ▸ mem_filter.mpr ⟨he, he'⟩
    rw [hk e hm] at hl
    cases hl
  | false =>
    refine ⟨?_, rfl⟩
    cases d with
    | cooperative => rfl
    | renewing =>
      rw [hp rfl e he he'] at hl
      cases hl

/-! ## Execution -/

abbrev Any : List RunEvent → Prop := fun _ => True

/-- The work has been polled; this is all that a failed part of it leaves behind. -/
abbrev NoneWaiting (s : RunState) : Prop := s.waiting = false

abbrev exchange (c : Callback) (r : c.Reply) : List RunEvent := [.started c, .replied c r]

theorem ensures_whileOwned {lo} (hB : ∀ t es, ownEvents t = o → G t → B (t ++ es)) :
    Ensures (runTerms d rt) (Polled o G) (ensureClaimOwned lo)
      (fun s _ => ∃ now, Polled (o ++ exchange (.renewOccurrence now) (.ok true)) B s) NoneWaiting := by
  refine .bind ensures_now fun now => .bind (ensures_await (fun _ _ _ => trivial) hB) fun rp => ?_
  cases rp with
  | error e => exact .throw fun s _ h => h.waiting
  | ok ow =>
    cases ow with
    | true => exact .pure fun s _ h => ⟨now, h⟩
    | false => exact .throw fun s _ h => h.waiting

theorem Executing.append {n k es} (h : Executing n o) (he : Executing k es) :
    Executing (n + k) (o ++ es) where
  count := by rw [attemptCount, countP_append, ← attemptCount, h.count, ← he.count]; rfl
  going := forall_mem_append.mpr ⟨h.going, he.going⟩
  unstarted := noneStarted_append.mpr ⟨h.unstarted, he.unstarted⟩
  kept := forall_mem_append.mpr ⟨h.kept, he.kept⟩

theorem Executing.renewal {n} (h : Executing n o) (now) :
    Executing n (o ++ exchange (.renewOccurrence now) (.ok true)) :=
  h.append (k := 0) ⟨rfl, by simp [ends, attemptReply?], by simp [NoneStarted, starts, kind],
    by simp [lost, confirmed]⟩

theorem Executing.slept {n ms} {ch : Bool} (h : Executing n o) :
    Executing n (o ++ exchange (.sleep ms) ch) :=
  h.append (k := 0) ⟨rfl, by simp [ends, attemptReply?], by simp [NoneStarted, starts, kind],
    by simp [lost]⟩

theorem LastAttempt.append (h : LastAttempt o a) {es}
    (he : es.filterMap attemptReply? = []) : LastAttempt (o ++ es) a := by
  obtain ⟨r, dt, hl, rfl⟩ := h
  exact ⟨r, dt, by rw [filterMap_append, he, append_nil, hl], rfl⟩

theorem Executed.renewal (h : Executed ri a o) (now) :
    Executed ri a (o ++ exchange (.renewOccurrence now) (.ok true)) where
  last := h.last.append rfl
  settled := by
    obtain ⟨e, he, hs⟩ := h.settled
    exact ⟨e, mem_append_left _ he, hs⟩
  reported := h.reported.imp_right (mem_append_left _)
  unstarted := noneStarted_append.mpr ⟨h.unstarted, by simp [NoneStarted, starts, kind]⟩
  kept := forall_mem_append.mpr ⟨h.kept, by simp [lost, confirmed]⟩

section Attempt

variable {n : Nat} {sink : Sink} {ri : String} {rp : Except String Attempt} {dt : Option String}

variable {t : List RunEvent} {job : CronJob}

theorem Executing.mayAttempt (h : Executing n o) (hn : n ≤ rt) (ho : ownEvents t = o)
    (hl : LoopKept d t) : MayStart d rt t (.attempt sink ri) := by
  subst ho
  refine ⟨?_, ?_, noneStarted_own.mpr h.unstarted, noneLost rfl h.kept hl⟩
  · rw [← attemptCount_own, h.count]
    exact hn
  · exact (forall_own fun e he => ends_of_not_own he).mpr h.going

theorem lastAttempt_exchange : LastAttempt (o ++ exchange (.attempt sink ri) rp)
    (attemptOf rp dt) :=
  ⟨rp, dt, by rw [filterMap_append]; exact getLast?_concat, rfl⟩

theorem Executing.failed (h : Executing n o) (hs : (attemptOf rp dt).success = false)
    (hr : (attemptOf rp dt).retryable = true) :
    Executing (n + 1) (o ++ exchange (.attempt sink ri) rp) := by
  have hs' : (attemptOf rp none).success = false := hs
  have hr' : (attemptOf rp none).retryable = true := hr
  exact h.append ⟨rfl, by simp [ends, attemptReply?, hs', hr'], by simp [NoneStarted, starts, kind],
    by simp [lost]⟩

theorem Executing.succeeded (h : Executing n o) (hs : (attemptOf rp dt).success = true) :
    Executed ri (attemptOf rp dt) (o ++ exchange (.attempt sink ri) rp) where
  last := lastAttempt_exchange
  settled := ⟨.replied (.attempt sink ri) rp, by simp, hs⟩
  reported := .inl hs
  unstarted := noneStarted_append.mpr ⟨h.unstarted.subset (by simp),
    by simp [NoneStarted, starts, kind]⟩
  kept := forall_mem_append.mpr ⟨h.kept, by simp [lost]⟩

theorem Executing.reported (h : Executing n o) (now) : Executed ri (attemptOf rp dt)
    (o ++ exchange (.attempt sink ri) rp ++ exchange (.renewOccurrence now) (.ok true) ++
      exchange (.failed ri (attemptOf rp dt)) ()) where
  last := (lastAttempt_exchange.append rfl).append rfl
  settled := ⟨.replied (.failed ri (attemptOf rp dt)) (), by simp, rfl⟩
  reported := .inr (by simp)
  unstarted := by
    simp only [noneStarted_append]
    exact ⟨⟨⟨h.unstarted.subset (by simp), by simp [NoneStarted, starts, kind]⟩,
      by simp [NoneStarted, starts, kind]⟩,
      by simp [NoneStarted, starts, kind]⟩
  kept := by
    simp only [forall_mem_append]
    exact ⟨⟨⟨h.kept, by simp [lost]⟩, by simp [lost, confirmed]⟩, by simp [lost]⟩

theorem Executing.mayReport (h : Executing n o) (now) (hs : (attemptOf rp dt).success = false)
    (hl : (attemptOf rp dt).retryable = false ∨ n = rt)
    (ho : ownEvents t = o ++ exchange (.attempt sink ri) rp ++
      exchange (.renewOccurrence now) (.ok true)) (hL : LoopKept d t) :
    MayStart d rt t (.failed ri (attemptOf rp dt)) := by
  refine ⟨lastAttempt_own.mpr (ho ▸ lastAttempt_exchange.append rfl), hs, hl.imp_right ?_, ?_,
    noneLost ho ?_ hL⟩
  · rintro rfl
    rw [← attemptCount_own, ho, attemptCount, countP_append, countP_append, ← attemptCount, h.count]
    rfl
  · rw [noneStarted_own, ho]
    simp only [noneStarted_append]
    exact ⟨⟨h.unstarted, by simp [NoneStarted, starts, kind]⟩, by simp [NoneStarted, starts, kind]⟩
  · simp only [forall_mem_append]
    exact ⟨⟨h.kept, by simp [lost]⟩, by simp [lost, confirmed]⟩

def ExecutionEnds (runId : String) (s : RunState) (result : Option Attempt) : Prop :=
  match result with
  | none => NoneWaiting s
  | some a => ∃ o, Executed runId a o ∧ Polled o Any s

theorem ensures_attemptOnce {bm} (h : Executing n o) (hn : n ≤ rt) {ag} (hN : ag = none → n = rt)
    (hS : ∀ nx ∈ ag, ∀ dt o', Executing (n + 1) o' →
      Ensures (runTerms d rt) (Polled o' Any) (nx dt) (ExecutionEnds ri) NoneWaiting) :
    Ensures (runTerms d rt) (Polled o Any) (attemptOnce job ri bm dt ag)
      (ExecutionEnds ri) NoneWaiting := by
  have ha : ∀ {o : List RunEvent} {G : List RunEvent → Prop} (t es : List RunEvent),
      ownEvents t = o → G t → Any (t ++ es) := fun _ _ _ _ => trivial
  refine ensures_unlessStopped (fun _ h => h) <| .bind (ensures_whileOwned ha) fun _ =>
    .exists_ fun now => ensures_unlessStopped (fun _ h => h) <| .bind (ensures_await
      (fun t ho hG => (h.renewal now).mayAttempt hn ho hG.2) ha) fun rp =>
        ensures_unlessStopped (fun _ h => h) ?_
  by_cases hu : (attemptOf rp dt).success = true
  · rw [if_pos hu]
    exact .pure fun s _ hs => ⟨_, (h.renewal now).succeeded hu, hs.own, hs.waiting, trivial⟩
  · rw [if_neg hu]
    have hf := Bool.eq_false_iff.mpr hu
    cases hg : ag.filter fun _ => (attemptOf rp dt).retryable with
    | none =>
      refine ensures_unlessStopped (fun _ h => h) <| .bind (ensures_whileOwned ha) fun _ =>
        .exists_ fun now' => ensures_unlessStopped (fun _ h => h) <| .bind (ensures_await
          (fun t ho hG => (h.renewal now).mayReport now' hf ?_ ho hG.2) ha) fun _ =>
            .pure fun s _ hs => ⟨_, (h.renewal now).reported now', hs⟩
      cases ag with
      | none => exact .inr (hN rfl)
      | some nx => exact .inl (by simpa using hg)
    | some nx =>
      obtain ⟨he, hr⟩ := Option.filter_eq_some_iff.mp hg
      refine .bind ensures_now fun now' => .bind (ensures_await (fun _ _ _ => trivial) ha)
        fun ch => ?_
      cases ch with
      | false => exact hS nx he _ _ ((h.renewal now).failed hf hr).slept
      | true =>
        exact ensures_unlessStopped (fun _ h => h) <| (hS nx he _ _
          ((h.renewal now).failed hf hr).slept).pre fun s _ hs => ⟨hs.own, hs.waiting, trivial⟩

theorem ensures_attempts (lf bm) (hn : n + lf = rt) (h : Executing n o) :
    Ensures (runTerms d rt) (Polled o Any) (attempts job ri lf bm dt)
      (ExecutionEnds ri) NoneWaiting := by
  induction lf generalizing n o bm dt with
  | zero => exact ensures_attemptOnce h (by omega) (fun _ => hn) nofun
  | succ lf ih =>
    refine ensures_attemptOnce h (by omega) nofun fun nx he dt o' ho' => ?_
    cases he
    exact ih _ (by omega) ho'

end Attempt

/-! ## Delivery and completion -/

theorem Deliverable.append (h : Deliverable t) (es) : Deliverable (t ++ es) := by
  obtain ⟨e, e', hs, he, he'⟩ := h
  exact ⟨e, e', hs.trans (sublist_append_left t es), he, he'⟩

/-- A renewal of the loop failed only after execution had ended and the work had renewed the claim. -/
def LostLate (d : Driver) (t : List RunEvent) : Prop :=
  d = .renewing → Deliverable t ∧
    ∀ earlier e later, t = earlier ++ e :: later → e.lost → Deliverable earlier

theorem LostLate.append (h : LostLate d t) (es) : LostLate d (t ++ es) := by
  intro hd
  obtain ⟨hr, hl⟩ := h hd
  refine ⟨hr.append es, fun ea e la he ho => ?_⟩
  rcases append_eq_append_iff.mp he with ⟨mo, rfl, -⟩ | ⟨mo, rfl, hm⟩
  · exact hr.append mo
  · cases mo with
    | nil => simpa using hr
    | cons e' mo =>
      obtain ⟨rfl, -⟩ := List.cons.inj hm
      exact hl ea e mo rfl ho

section

variable (h : Executed ri a o) (ho : ownEvents t = o ++ exchange (.renewOccurrence now) (.ok true))
include h ho

theorem Executed.deliverable : Deliverable t := by
  obtain ⟨e, he, hs⟩ := h.settled
  refine ⟨e, .replied (.renewOccurrence now) (.ok true), ?_, hs, rfl⟩
  have hu : (o ++ exchange (.renewOccurrence now) (.ok true)).Sublist t := ho ▸ filter_sublist
  refine .trans ?_ hu
  exact (singleton_sublist.mpr he).append (by simp)

theorem Executed.lostLate (hl : LoopKept d t) : LostLate d t := by
  intro hd
  refine ⟨h.deliverable ho, fun ea e la he hs => ?_⟩
  have hm : e ∈ t := by rw [he]; simp
  have hn := noneLost ho (h.renewal now).kept hl e hm hs
  rw [hd] at hn
  cases hn.1

end

theorem Executed.maySend (h : Executed ri a o) (ho : ownEvents t = o) (hl : LoopKept d t) :
    MayStart d rt t (.send ri a) := by
  subst ho
  exact ⟨lastAttempt_own.mpr h.last, h.reported.imp_right mem_of_mem_filter,
    noneStarted_own.mpr h.unstarted, noneLost rfl h.kept hl⟩

structure Sent (o : List RunEvent) : Prop where
  unstarted : NoneStarted [.deliver, .complete] o
  kept : ∀ e ∈ o, e.lost = false

theorem ensures_sendResult {de} (h : Executed ri a o) :
    Ensures (runTerms d rt) (Polled (o ++ exchange (.renewOccurrence now) (.ok true)) (LoopKept d))
      (sendResult de ri a) (fun s _ => ∃ o', Sent o' ∧ Polled o' (LostLate d) s) NoneWaiting := by
  have hr := h.renewal now
  cases de with
  | notRequested =>
    exact .pure fun s _ hs => ⟨_, ⟨hr.unstarted.subset (by simp), hr.kept⟩, hs.own,
      hs.waiting, h.lostLate hs.own hs.all⟩
  | requested =>
    refine .bind (ensures_await (fun t ho hl => hr.maySend ho hl)
      fun t es ho hl => (h.lostLate ho hl).append es) fun rp => ?_
    have he : Sent (o ++ exchange (.renewOccurrence now) (.ok true) ++ exchange (.send ri a) rp) :=
      ⟨noneStarted_append.mpr ⟨hr.unstarted.subset (by simp), by simp [NoneStarted, starts, kind]⟩,
        forall_mem_append.mpr ⟨hr.kept, by simp [lost]⟩⟩
    cases rp with
    | ok ss => exact .pure fun s _ hs => ⟨_, he, hs⟩
    | error e => exact .pure fun s _ hs => ⟨_, he, hs⟩

structure Uncommitted (o : List RunEvent) : Prop where
  unstarted : NoneStarted [.complete] o
  kept : ∀ e ∈ o, e.lost = false

theorem Uncommitted.mayComplete (h : Uncommitted o) (ho : ownEvents t = o) (ha : LostLate d t)
    {re co} : MayStart d rt t (.completeOccurrence re co) := by
  subst ho
  refine ⟨noneStarted_own.mpr h.unstarted, fun e he hl => ?_, fun hd => (ha hd).2⟩
  cases ho : e.own with
  | false => rfl
  | true =>
    rw [h.kept e (mem_filter.mpr ⟨he, ho⟩)] at hl
    cases hl

section Run

variable {cal : Calendar} {cl : OccurrenceClaim} {ad : Bool} {ri : String} {a : Attempt}
  {ss : Option DeliveryStatus} {su : Bool}

theorem Sent.renewal (h : Sent o) (now) : Sent (o ++ exchange (.renewOccurrence now) (.ok true)) :=
  ⟨noneStarted_append.mpr ⟨h.unstarted, by simp [NoneStarted, starts, kind]⟩,
    forall_mem_append.mpr ⟨h.kept, by simp [lost, confirmed]⟩⟩

theorem ensures_projectRun (h : Sent o) :
    Ensures (runTerms d rt) (Polled o (LostLate d)) (projectRun cl ri a ss su)
      (fun s _ => ∃ o', Uncommitted o' ∧ Polled o' (LostLate d) s) NoneWaiting := by
  refine .bind (ensures_whileOwned fun t es _ hl => hl.append es) fun _ => .exists_ fun now =>
    .bind ensures_stopped fun st => ?_
  have hr := h.renewal now
  cases st with
  | true =>
    exact .pure fun s _ hs => ⟨_, ⟨hr.unstarted.subset (by simp), hr.kept⟩, hs.own,
      hs.waiting, hs.all.1⟩
  | false =>
    refine .bind (ensures_await (fun t ho hG => ?_) fun t es _ hG => hG.1.append es) fun rp => ?_
    · exact ⟨noneStarted_own.mpr (ho ▸ hr.unstarted), noneLost ho hr.kept (hG.2 rfl)⟩
    · cases rp with
      | error e => exact .throw fun s _ hs => hs.waiting
      | ok _ =>
        refine .pure fun s _ hs => ⟨_, ⟨?_, ?_⟩, hs⟩
        · exact noneStarted_append.mpr ⟨hr.unstarted.subset (by simp),
            by simp [NoneStarted, starts, kind]⟩
        · exact forall_mem_append.mpr ⟨hr.kept, by simp [lost]⟩

theorem ensures_checked {α} {x : Except String α} {A} (hA : ∀ s, A s → NoneWaiting s) :
    Ensures (runTerms d rt) A (Runtime.ofExcept x) (fun s _ => A s) NoneWaiting := by
  cases x with
  | ok a => exact .pure fun s _ h => h
  | error e => exact .throw fun s _ h => hA s h

theorem ensures_commitRun (h : Uncommitted o) :
    Ensures (runTerms d rt) (Polled o (LostLate d)) (commitRun cal cl ad ri a ss su)
      (fun s _ => NoneWaiting s) NoneWaiting := by
  refine .bind ensures_now fun fa => .bind (ensures_checked fun s hs => hs.waiting) fun next => ?_
  refine .bind (ensures_await (B := Any) (fun t ho hl => h.mayComplete ho hl)
    fun _ _ _ _ => trivial) fun rp => .bind (ensures_checked fun s hs => hs.waiting) fun completed => ?_
  cases completed with
  | true => exact .pure fun s _ hs => hs.waiting
  | false => exact .throw fun s _ hs => hs.waiting

variable {cn : SchedulerConfig} {de : ManualDelivery} {pe : Bool}

theorem ensures_executeAndPersistInner (hr : retriesOf cn cl.job = rt)
    (h : Executing 0 o) : Ensures (runTerms d rt) (Polled o Any)
      (executeAndPersistInner cal cn cl de ad) (fun s _ => NoneWaiting s) NoneWaiting := by
  have hi : Ensures (runTerms d rt) (Polled o Any) (runIdOf cl) (fun s _ => Polled o Any s)
      NoneWaiting := by
    rw [runIdOf]
    cases cl.runId with
    | some ri => exact .pure fun s _ hs => hs
    | none => exact ensures_drawUuid
  refine .bind hi fun ri => .bind (ensures_attempts _ _ (by rw [hr, Nat.zero_add]) h) fun re => ?_
  cases re with
  | none => exact .pure fun s _ hs => hs
  | some a =>
    refine .exists_and fun o' he => .bind (ensures_whileOwned (B := Any) fun _ _ _ _ => trivial)
      fun _ => .exists_ fun now => ensures_unlessStopped (fun _ h => h) ?_
    refine .bind ((ensures_sendResult he).pre fun s _ hs =>
      ⟨hs.own, hs.waiting, hs.all.2⟩) fun se => .exists_and fun _ hS => ?_
    refine .bind (ensures_projectRun hS) fun _ => .exists_and fun _ hu => ?_
    exact .bind (ensures_commitRun hu) fun _ => .pure fun s _ hs => hs

theorem executing_nil : Executing 0 [] :=
  ⟨rfl, by simp, by simp [NoneStarted], by simp⟩

theorem executing_permit {rp : Except String Unit} : Executing 0 (exchange .acquirePermit rp) :=
  ⟨rfl, by simp [ends, attemptReply?], by simp [NoneStarted, starts, kind], by simp [lost]⟩

theorem ensures_acquirePermit : Ensures (runTerms d rt) (Polled [] Any) (acquirePermit pe)
      (fun s _ => ∃ o, Executing 0 o ∧ Polled o Any s) NoneWaiting := by
  cases pe with
  | false => exact .pure fun s _ hs => ⟨[], executing_nil, hs⟩
  | true =>
    refine .bind (ensures_await (B := Any) (fun _ _ _ => trivial) fun _ _ _ _ => trivial) fun rp => ?_
    refine (ensures_checked fun s hs => hs.waiting).weaken (fun _ _ hs => hs)
      (fun s _ _ hs => ⟨_, executing_permit, hs⟩) fun _ hs => hs

theorem ensures_releaseClaimAfterWorkError {e} :
    Ensures (runTerms d rt) NoneWaiting (releaseClaimAfterWorkError e)
      (fun s _ => NoneWaiting s) NoneWaiting := by
  intro s hs hi
  have hp : Polled (ownEvents s.trace) Any s := ⟨rfl, hi, trivial⟩
  refine Ensures.bind ensures_now (fun now => ?_) s hs hp
  exact .bind (ensures_await (c := .releaseOccurrence now) (B := Any) (fun _ _ _ => trivial)
    fun _ _ _ _ => trivial) fun _ => .throw fun s _ hs => hs.waiting

theorem ensures_runClaimWithRenewal (hr : retriesOf cn cl.job = rt) :
    Ensures (runTerms d rt) (Polled [] Any)
      (runClaimWithRenewal cal cn cl de ad pe) (fun s _ => NoneWaiting s) NoneWaiting := by
  refine .tryCatch (.bind ensures_acquirePermit fun _ => .exists_and fun o h => ?_) fun e =>
    ensures_releaseClaimAfterWorkError
  refine .bind (ensures_whileOwned (B := Any) fun _ _ _ _ => trivial) fun _ => .exists_ fun now =>
    .bind ensures_cancelled fun ca => ?_
  cases ca with
  | true => exact .throw fun s _ hs => hs.waiting
  | false =>
    refine .bind (ensures_executeAndPersistInner hr (h.renewal now)) fun ou => ?_
    cases ou with
    | some ou => exact .pure fun s _ hs => hs
    | none => exact .throw fun s _ hs => hs

end Run

end Tinyflows.Cron
