import Tinyflows.Cron.Lemmas.Changes

/-!
# What one access ensures

Every write is shown to take one of the forms a write may take. Between two accesses a call keeps what
it knows: facts about the log that the others cannot undo, and facts about the store as it once was.
-/

namespace Tinyflows.Cron
open Lib Storage List

/-! ## What a call knows -/

def Stable (i : Nat) (A : CronStore → Prop) : Prop :=
  ∀ s t, Inv t → Rely i s t → A s → A t

/-- Knowledge of the log that survives the call's own writes as well, those of jobs apart. -/
structure Known (i : Nat) (A : CronStore → Prop) : Prop where
  stable : Stable i A
  silent : ∀ {s t}, t.log = s.log → s.issued <+: t.issued → A s → A t
  leased : ∀ {s t job occurrence event}, t.log = s.log ++ [(i, .lease job occurrence event)] →
    t.issued = s.issued → A s → A t

def Seen (i : Nat) (F : CronStore → Prop) (s : CronStore) : Prop :=
  ∃ t, Inv t ∧ F t ∧ Rely i t s

section Knowledge

variable {i : Nat} {A B F : CronStore → Prop}

theorem Stable.and (hA : Stable i A) (hB : Stable i B) : Stable i fun s => A s ∧ B s :=
  fun s t ht hr h => ⟨hA s t ht hr h.1, hB s t ht hr h.2⟩

theorem Seen.stable : Stable i (Seen i F) := by
  rintro s t - hr ⟨u, hu, hF, hs⟩
  exact ⟨u, hu, hF, hs.trans hr⟩

variable {s : CronStore}

theorem Seen.now (hs : Inv s) (h : F s) : Seen i F s :=
  ⟨s, hs, h, .refl i s⟩

theorem Known.and (hA : Known i A) (hB : Known i B) : Known i fun s => A s ∧ B s where
  stable := hA.stable.and hB.stable
  silent hl hi h := ⟨hA.silent hl hi h.1, hB.silent hl hi h.2⟩
  leased hl hi h := ⟨hA.leased hl hi h.1, hB.leased hl hi h.2⟩

theorem known_of_grown (h : ∀ {s t}, s.log <+: t.log → s.issued <+: t.issued → A s → A t) :
    Known i A where
  stable _ _ _ hr := h hr.log hr.issued
  silent hl hi := h (hl ▸ prefix_rfl) hi
  leased hl hi := h (hl ▸ prefix_append _ _) (hi ▸ prefix_rfl)

theorem known_true : Known i fun _ => True :=
  known_of_grown fun _ _ _ => trivial

theorem known_mem (e) : Known i fun s => e ∈ s.log :=
  known_of_grown fun hl _ h => hl.subset h

theorem known_importOf (job) : Known i fun s => importOf i s.log = job where
  stable _ _ _ hr h := hr.importOf_eq.trans h
  silent hl _ h := by rwa [hl]
  leased hl _ h := by rwa [hl, importOf_append_offImport (offImport_lease _ _ _)]

theorem mem_of_token {t} (ht : Inv t) (hr : Rely i s t) {n}
    (hn : s.issued[n]? = some i) {e} (he : e ∈ t.log)
    (hto : e.2.token = some (uuidOf n)) : e ∈ s.log := by
  obtain ⟨m, hm, ho⟩ := ht.tokens e.1 e.2 _ he hto
  obtain rfl := uuidOf_injective hm
  rw [getElem?_grown hr.issued hn] at ho
  have hM : e.2 ∈ own i t.log := mem_own.mpr (by rwa [Option.some.inj ho])
  rw [hr.own, mem_own, Option.some.inj ho] at hM
  exact hM

def Fresh (i n : Nat) (s : CronStore) : Prop :=
  s.issued[n]? = some i ∧ Unused s.log (uuidOf n)

/-- A token that the call has drawn and under which no job was acquired. -/
def Ready (i n : Nat) (s : CronStore) : Prop :=
  s.issued[n]? = some i ∧ Unclaimed s.log (uuidOf n)

theorem Fresh.ready {n} (h : Fresh i n s) : Ready i n s :=
  ⟨h.1, h.2.unclaimed⟩

theorem stable_fresh (n) : Stable i (Fresh i n) :=
  fun _ _ ht hr h => ⟨getElem?_grown hr.issued h.1,
    fun e he ho => h.2 e (mem_of_token ht hr h.1 he ho) ho⟩

theorem known_ready (n) : Known i (Ready i n) where
  stable s t ht hr h := by
    refine ⟨getElem?_grown hr.issued h.1, fun e he id cl hq ho => ?_⟩
    refine h.2 e (mem_of_token ht hr h.1 he ?_) id cl hq ho
    rw [hq, Event.token, ho]
  silent hl hi h := ⟨getElem?_grown hi h.1, by rw [hl]; exact h.2⟩
  leased {s t job occurrence event} hl hi h := by
    refine ⟨by rw [hi]; exact h.1, fun e he id cl hq => ?_⟩
    rw [hl, mem_append, mem_singleton] at he
    rcases he with he | rfl
    · exact h.2 e he id cl hq
    · cases hq

end Knowledge

/-! ## Rules -/

section Rules

variable {M : String → RowEvent → Prop} {i : Nat} {T : Terms CronStore (Call CronDocs Event) Call.Reply}
  {A B E : CronStore → Prop} {α : Type}

theorem Under.onDocuments (hT : Under M i T) : OnDocuments i T :=
  ⟨hT.serves, fun _ => hT.allows .idle⟩

theorem ensures_read (hT : Under M i T) (hA : Stable i A) (k) :
    Ensures T A (Access.read k) (fun s fo => A s ∧ s.docs.lookup k = fo) A := by
  intro s hs hAs
  refine meets_get hT.onDocuments (fun t m ht hr => ?_) fun t ht hr => ?_
  · exact hA s t (hT.inv ht) (hT.rely hr) hAs
  · exact ⟨hA s t (hT.inv ht) (hT.rely hr) hAs, rfl⟩

theorem ensures_write (hT : Under M i T) (hA : Stable i A) {ops note}
    (hw : ∀ t, Inv t → A t → ops.all (·.admitted t.docs) = true → Respects i t ops →
      Change M i t (t.commit i ops note) ∧ B (t.commit i ops note)) :
    Ensures T A (Access.write ops note) (fun s _ => B s) A := by
  intro s hs hAs
  refine meets_write hT.onDocuments (fun t e ht hr _ => ?_) fun t ht hr ho he => ?_
  · exact hA s t (hT.inv ht) (hT.rely hr) hAs
  · obtain ⟨hc, hB⟩ := hw t (hT.inv ht) (hA s t (hT.inv ht) (hT.rely hr) hAs) ho (hT.respects ht he)
    exact ⟨hT.allows hc, hT.keeps ht he hc, hB⟩

variable {Q : CronStore → α → Prop} {x : Access α}

theorem ensures_ofStorage {x}
    (h : ∀ s, T.inv s → A s → x.Meets T (fun t r => match r with | .ok a => Q t a | .error _ => E t) s) :
    Ensures T A (Access.ofStorage x) Q E := by
  intro s hs hAs
  refine Program.Meets.bind hs (h s hs hAs) ?_
  rintro (e | a) t ht hp
  · exact hp
  · exact hp

theorem ensures_outcome {x : Access α} {Q E'}
    (h : Ensures T A x Q E) : Ensures T A x.outcome (fun s r => match r with
      | .ok a => Q s a
      | .error _ => E s) E' := by
  intro s hs hAs
  refine Program.Meets.bind hs (h s hs hAs) ?_
  rintro (e | a) t ht hp
  · exact hp
  · exact hp

theorem ensures_unlessConflict (h : Ensures T A x Q E) :
    Ensures T A x.unlessConflict (fun s r => match r with
      | some a => Q s a
      | none => E s) E := by
  refine (ensures_outcome h).bind ?_
  rintro (e | a)
  · dsimp only
    split
    · exact .pure fun _ _ hE => hE
    · exact .throw fun _ _ hE => hE
  · exact .pure fun _ _ hQ => hQ

theorem ensures_logged (h : Ensures T A x (fun s _ => B s) B) {E' : CronStore → Prop} :
    Ensures T A x.logged (fun s _ => B s) E' := by
  refine (ensures_outcome h).bind ?_
  rintro (e | a)
  · exact .pure fun _ _ hB => hB
  · exact .pure fun _ _ hB => hB

theorem ensures_ofExcept (r : Except CronError α) :
    Ensures T A (Access.ofExcept r) (fun s a => A s ∧ r = .ok a) A := by
  intro s hs hAs
  cases r with
  | error e => exact hAs
  | ok a => exact ⟨hAs, rfl⟩

theorem ensures_uuid (hT : Under M i T) (hA : Known i A) :
    Ensures T A Access.uuid (fun s tk => A s ∧ ∃ n, tk = uuidOf n ∧ Fresh i n s) E := by
  intro s hs hAs
  refine meets_unique hT.onDocuments fun t ht hr hS => ?_
  have hi := hT.inv ht
  refine ⟨hT.allows .drew, hT.keeps ht hS .drew, ?_, t.issued.length, rfl, ?_, ?_⟩
  · exact hA.silent (s := t) rfl (prefix_append _ _) (hA.stable s t hi (hT.rely hr) hAs)
  · simp
  · intro e he hto
    -- A token in use has an owner, so it was drawn before.
    obtain ⟨n, hn, ho⟩ := hi.tokens e.1 e.2 _ he hto
    rw [← uuidOf_injective hn, getElem?_eq_none (Nat.le_refl _)] at ho
    cases ho

end Rules

end Tinyflows.Cron
