import Tinyflows.Adaptive.Episodes

/-!
# An episode's attempts are bounded

Every execution is paid for: by the attempt recorded after it, or by the call that was cut short.
Attempts are recorded up to the budget, and once more in every call that finds the episode over.
-/

namespace Tinyflows.Adaptive
open Lib List Nat

variable {G R P : Type} {called : G → R → List (String × Bool)} {b : Budget}
  {f k : Nat} {s : Trail}

/-- The budgeted attempts: the first is made in any case. -/
def Budget.ceiling (b : Budget) : Nat := max b.attempts 1

def Trail.spent (s : Trail) : Nat := (s.stored.map (·.attempt)).getD 0

def Trail.over (s : Trail) : Bool := s.stored.any Episode.finished

def Trail.late (s : Trail) : List (Option Episode) := s.executed.filter (·.any Episode.finished)

/-- What holds wherever a call is cut short. -/
structure Within (b : Budget) (f k : Nat) (s : Trail) : Prop where
  sorted : s.recorded.Pairwise (· ≥ ·)
  next : ∀ n ∈ s.recorded, n ≤ s.spent + 1
  new : s.stored = none → s.recorded = []
  going : s.over = false → s.spent < b.ceiling
  bounded : s.spent ≤ b.ceiling + f
  paid : s.executed.length ≤ s.spent + k + 1
  late : s.late.length ≤ f

structure Ready (b : Budget) (f k : Nat) (s : Trail) : Prop where
  paid : s.executed.length ≤ s.spent + k
  bounded : s.spent < b.ceiling + f
  late : s.over → s.late.length < f

theorem Within.save (h : Within b f k s) {e} (hs : s.spent ≤ e.attempt)
    (hn : ∀ n ∈ s.recorded, n ≤ e.attempt) (hg : e.finished = false → e.attempt < b.ceiling)
    (hb : e.attempt ≤ b.ceiling + f) : Within b f k (s.save e) where
  sorted := pairwise_cons.mpr ⟨hn, h.sorted⟩
  next n hm := by
    rcases mem_cons.mp hm with rfl | hm
    · exact le_succ _
    · exact le_succ_of_le (hn n hm)
  new he := by cases he
  going := hg
  bounded := hb
  paid := by have := h.paid; show s.executed.length ≤ e.attempt + k + 1; omega
  late := h.late

theorem Within.append (h : Within b f k s) (row) (hs : s.stored ≠ none)
    (hr : row.attempt = s.spent + 1) : Within b f k (s.append row) :=
  { h with
    sorted := pairwise_cons.mpr ⟨fun n hn => hr ▸ h.next n hn, h.sorted⟩
    next := fun n hm => by
      rcases mem_cons.mp hm with rfl | hm
      · exact Nat.le_of_eq hr
      · exact h.next n hm
    new := fun he => absurd he hs }

theorem Within.execute (h : Within b f k s) (hr : Ready b f k s) : Within b f k s.execute := by
  refine { h with paid := succ_le_succ hr.paid, late := ?_ }
  rw [Trail.late, Trail.execute, filter_cons]
  split
  · exact hr.late ‹_›
  · exact h.late

/-! ## One attempt -/

section Attempts

/-- The program runs by itself after `k` calls were cut short, and may fail anywhere. -/
abbrev Keeps {α : Type} (b : Budget) (f k : Nat) (A : Trail → Prop) (x : Driving G R P α)
    (Q : Trail → α → Prop) : Prop :=
  Ensures (.alone Serves (Within b f k)) A x Q fun _ => True

variable {A : Trail → Prop} {c : Call G R P} {planned : Attempt G P} {ran : R} {record : Episode}

theorem ensures_ask {Q} (h : ∀ s r t, Within b f k s → A s →
    Serves s c r t → Within b f k t ∧ ∀ a, r = .ok a → Q t a) : Keeps b f k A (ask c) Q := by
  rintro s - hA _ hs rfl r t hr
  obtain ⟨ht, hQ⟩ := h s r t hs hA hr
  refine ⟨trivial, ht, ?_⟩
  cases r with
  | error e => trivial
  | ok a => exact hQ a rfl

theorem ensures_aside (hc : ∀ s r t, Serves s c r t → t = s) : Keeps b f k A (ask c) (fun s _ => A s) :=
  ensures_ask fun s r t hs hA hr => by
    cases hc s r t hr
    exact ⟨hs, fun _ _ => hA⟩

theorem ensures_settle (hc : ∀ s r t, Serves s c r t → t = s) :
    Keeps b f k A (settle c) (fun s _ => A s) := by
  rintro s - hA _ hs rfl r t hr
  cases hc s r t hr
  exact ⟨trivial, hs, hA⟩

theorem ensures_discard (hc : ∀ s r t, Serves s c r t → t = s) :
    Keeps b f k A (discard (settle c)) (fun s _ => A s) :=
  (ensures_settle hc).bind fun _ => .pure fun _ _ hA => hA

theorem ensures_start : Keeps b f k (Ready b f k)
    (start : Driving G R P Episode) fun s record => Ready b f k s ∧ s.stored = some record := by
  refine (ensures_ask (Q := fun s found => Ready b f k s ∧ s.stored = found) ?_).bind ?_
  · rintro s r t hs hr ⟨rfl, hf⟩
    exact ⟨hs, fun found h => ⟨hr, (hf found h).symm⟩⟩
  rintro (_ | existing)
  · refine (ensures_ask (Q := fun s _ => Ready b f k s ∧ s.stored = some {}) ?_).bind
      fun _ => .pure fun _ _ h => h
    rintro s r t hs ⟨hr, hn⟩ hserves
    have h0 : s.spent = 0 := by simp [Trail.spent, hn]
    have hw : Within b f k (s.save {}) :=
      hs.save (Nat.le_of_eq h0) (by simp [hs.new hn]) (fun _ => Nat.le_max_right ..) (Nat.zero_le _)
    rcases hserves with rfl | ⟨rfl, he⟩
    · exact ⟨hw, fun _ _ => ⟨⟨h0 ▸ hr.paid, h0 ▸ hr.bounded, nofun⟩, rfl⟩⟩
    · exact ⟨hs, by rintro a rfl; cases he⟩
  · exact .pure fun _ _ h => h

theorem attempt_of_retry {v n st} (h : decideNext v n st b = .retry) : n < b.ceiling := by
  unfold decideNext Verdict.shouldRetry Budget.exhausted at h
  grind [Budget.ceiling]

/-- Closing an attempt pays for its execution. -/
theorem ensures_close (hb : record.attempt < b.ceiling + f) :
    Keeps b f k (fun s : Trail => s.stored = some record) (close called b (record.attempt + 1) planned ran)
      (fun s closed => s.executed.length ≤ s.spent + k ∧ (closed.next = .retry → Ready b f k s)) := by
  refine (ensures_aside fun _ _ _ h => by exact h).bind fun verdict => ?_
  refine (ensures_aside fun _ _ _ h => by exact h.1).bind fun found => ?_
  refine (ensures_ask (Q := fun s _ => s.stored = some record) ?_).bind fun rowId => ?_
  · rintro s r t hs hr hserves
    have hw := hs.append ⟨record.attempt + 1, planned.approach, verdict⟩ (by simp [hr])
      (by simp [Trail.spent, hr])
    rcases hserves with rfl | ⟨rfl, -⟩
    · exact ⟨hw, fun _ _ => hr⟩
    · exact ⟨hs, fun _ _ => hr⟩
  refine (ensures_discard fun _ _ _ h => by exact h).bind fun _ => ?_
  refine (Ensures.forM (fun _ => ensures_aside fun _ _ _ h => by exact h) _).bind fun _ => ?_
  refine (Ensures.forM (fun _ => ensures_aside fun _ _ _ h => by exact h) _).bind fun _ => ?_
  extract_lets stalled next
  refine (ensures_ask (Q := fun s _ => s.executed.length ≤ s.spent + k ∧
    (next = .retry → Ready b f k s)) ?_).bind fun _ => .pure fun _ _ h => h
  rintro s r t hs hr hserves
  have hspent : s.spent = record.attempt := by simp [Trail.spent, hr]
  have hpaid : s.executed.length ≤ record.attempt + 1 + k := by have := hs.paid; omega
  have hw : Within b f k (s.save ⟨next.status, record.attempt + 1, stalled⟩) := by
    refine hs.save (by simp [hspent]) (fun n hn => hspent ▸ hs.next n hn) (fun hg => ?_) hb
    refine attempt_of_retry (show next = .retry from ?_)
    cases hn : next <;> simp_all [Episode.finished, Next.status]
  rcases hserves with rfl | ⟨rfl, he⟩
  · refine ⟨hw, fun _ _ => ⟨hpaid, fun hn => ⟨hpaid, ?_, ?_⟩⟩⟩
    · exact Nat.lt_add_right _ (attempt_of_retry hn)
    · rw [hn]
      nofun
  · exact ⟨hs, by rintro a rfl; cases he⟩

theorem ensures_keep : Keeps b f k A (keepIfItGeneralises planned : Driving G R P Unit)
    fun s _ => A s := by
  unfold keepIfItGeneralises
  split
  · refine (ensures_settle fun _ _ _ h => by exact h).bind fun kept => ?_
    split
    · exact ensures_discard fun _ _ _ h => h
    · exact .pure fun _ _ hA => hA
  · exact .pure fun _ _ hA => hA

theorem ensures_repair {closed} :
    Keeps b f k A (repairIfTheGraphIsAtFault closed planned ran) fun s _ => A s := by
  unfold repairIfTheGraphIsAtFault
  split
  · refine (ensures_settle fun _ _ _ h => by exact h).bind fun repaired => ?_
    split <;> exact .pure fun _ _ hA => hA
  · exact .pure fun _ _ hA => hA

variable (hf : b.ceiling + f < 2 ^ 32)
include hf

theorem ensures_attempt (carry : Option (ResumePoint P)) :
    Keeps b f k (Ready b f k) (attemptContinuing called b carry)
      (fun s (closed, _) => s.executed.length ≤ s.spent + k ∧ (closed.next = .retry → Ready b f k s)) := by
  refine ensures_start.bind fun record => ?_
  refine .fact (P := record.attempt < b.ceiling + f) (fun s _ h => ?_) fun hb => ?_
  · simpa [Trail.spent, h.2] using h.1.bounded
  have hm : (record.attempt + 1) % 2 ^ 32 = record.attempt + 1 := mod_eq_of_lt (by omega)
  rw [hm]
  refine (ensures_aside fun _ _ _ h => by exact h).bind fun planned => ?_
  refine (ensures_ask (Q := fun s _ => s.stored = some record) ?_).bind fun ran => ?_
  · rintro s r t hs ⟨hr, hrec⟩ ⟨rfl, -⟩
    exact ⟨hs.execute hr, fun _ _ => hrec⟩
  refine (ensures_close hb).bind fun closed => ?_
  refine (Ensures.forM (fun _ => ensures_discard fun _ _ _ h => by exact h) _).bind fun _ => ?_
  split
  · exact ensures_keep.bind fun _ => .pure fun _ _ h => h
  · exact ensures_repair.bind fun _ => .pure fun _ _ h => h

theorem ensures_run (rounds : Nat) (carry : Option (ResumePoint P)) :
    Keeps b f k (Ready b f k) (run called b rounds carry) fun s _ => s.executed.length ≤ s.spent + k := by
  induction rounds generalizing carry with
  | zero => exact .pure fun _ _ h => h.paid
  | succ rounds ih =>
    refine (ensures_attempt hf carry).bind fun ⟨closed, next⟩ => ?_
    dsimp only
    split
    next hn => exact (ih next).pre fun _ _ h => h.2 hn
    next hn =>
      refine Ensures.pre (A := fun s => s.executed.length ≤ s.spent + k) ?_ fun _ _ h => h.1
      refine (ensures_settle fun _ _ _ h => by exact h).bind fun lessons => ?_
      exact (ensures_aside fun _ _ _ h => by exact h.1).bind fun _ => .pure fun _ _ h => h

end Attempts

/-! ## Every call -/

theorem Driven.settled (h : Driven called b P f k s) (hf : b.ceiling + f < 2 ^ 32) :
    Within b f k s ∧ s.executed.length ≤ s.spent + k := by
  -- a call begun when the episode is over has one attempt more to make
  have hready {n j : Nat} {t : Trail} (hw : Within b n j t) (hp : t.executed.length ≤ t.spent + j) :
      Within b (n + t.over.toNat) j t ∧ Ready b (n + t.over.toNat) j t := by
    have hg := hw.going
    have hb := hw.bounded
    have hl := hw.late
    cases ho : t.over
    · exact ⟨hw, hp, Nat.lt_add_right _ (hg ho), by simp [ho]⟩
    · exact ⟨{ hw with bounded := le_succ_of_le hb, late := le_succ_of_le hl },
        hp, lt_succ_of_le hb, fun _ => lt_succ_of_le hl⟩
  induction h with
  | new =>
    refine ⟨⟨.nil, nofun, fun _ => rfl, fun _ => Nat.le_max_right .., ?_, ?_, ?_⟩, ?_⟩
    all_goals exact zero_le _
  | returned rounds _ hrun ih =>
    obtain ⟨hw, hr⟩ := hready (ih (by omega)).1 (ih (by omega)).2
    exact (ensures_run hf rounds none _ hw hr).returns hw hrun
  | cut rounds _ hrun ih =>
    obtain ⟨hw, hr⟩ := hready (ih (by omega)).1 (ih (by omega)).2
    have ht := (ensures_run hf rounds none _ hw hr).leads hw hrun
    exact ⟨{ ht with paid := by have := ht.paid; omega }, by have := ht.paid; omega⟩

/-- The attempt numbers written to the ledger never decrease. There are no more executions than
budgeted attempts, failed or cut calls, and calls that found the episode over; and no execution begins
when the episode is over but in a call that found it so. -/
theorem episode_budget (h : Driven called b P f k s) (hf : max b.attempts 1 + f < 2 ^ 32) :
    s.recorded.Pairwise (· ≥ ·) ∧ s.executed.length ≤ max b.attempts 1 + k + f ∧
      (s.executed.filter (·.any Episode.finished)).length ≤ f := by
  obtain ⟨hw, hp⟩ := h.settled hf
  refine ⟨hw.sorted, ?_, hw.late⟩
  have hb : s.spent ≤ max b.attempts 1 + f := hw.bounded
  omega

def satisfies (s : Trail) : (c : Call Unit Unit Unit) → Except String (Answer c) × Trail
  | .episode => (.ok s.stored, s)
  | .saveEpisode record => (.ok (), s.save record)
  | .append row => (.ok "", s.append row)
  | .execute _ => (.ok (), s.execute)
  | .judge _ => (.ok ⟨true, .none, "", true⟩, s)
  | .decide => (.ok ⟨.errand "", (), [], none⟩, s)
  | .keep _ => (.ok none, s)
  | .repair .. => (.ok none, s)
  | .consolidate _ => (.ok [], s)
  | .saveSteps .. | .scoreWorkflow .. | .scoreLesson .. => (.ok (), s)

theorem serves_satisfies (s c) : Serves s c (satisfies s c).1 (satisfies s c).2 := by
  cases c <;> simp [Serves, satisfies, Except.toBool]

theorem driven_twice : Driven (fun (_ _ : Unit) => []) ⟨1, 1, 1⟩ Unit 1 0
    { stored := some ⟨.satisfied, 2, 0⟩, executed := [some ⟨.satisfied, 1, 0⟩, some {}],
      recorded := [2, 2, 1, 1, 0] } :=
  .returned 1 (.returned 1 .new (Program.returns_after serves_satisfies (n := 12) rfl))
    (Program.returns_after serves_satisfies (n := 12) rfl)

theorem twice_within_budget :
    ∃ s, Driven (fun (_ _ : Unit) => []) ⟨1, 1, 1⟩ Unit 1 0 s ∧ s.executed.length ≤ max 1 1 + 0 + 1 :=
  ⟨_, driven_twice, (episode_budget driven_twice (by decide)).2.1⟩

def misjudges (s : Trail) : (c : Call Unit Unit Unit) → Except String (Answer c) × Trail
  | .judge _ => (.error "", s)
  | c => satisfies s c

theorem serves_misjudges (s c) : Serves s c (misjudges s c).1 (misjudges s c).2 := by
  cases c <;> simp [Serves, misjudges, satisfies, Except.toBool]

/-- No call is cut short. A second one executes a satisfied episode again, a budget of no attempts is
overdrawn by the first, and a call in which the judge fails has executed what it does not count. -/
theorem satisfied_executed_again :
    (∃ s, Driven (fun (_ _ : Unit) => []) ⟨1, 1, 1⟩ Unit 1 0 s ∧ ¬ s.executed.length ≤ 1 + 0 ∧
      (some ⟨.satisfied, 1, 0⟩ : Option Episode) ∈ s.executed) ∧
    (∃ s, Driven (fun (_ _ : Unit) => []) ⟨0, 1, 1⟩ Unit 0 0 s ∧ ¬ s.executed.length ≤ 0 + 0) ∧
    ∃ s t, let once := (run (fun (_ _ : Unit) => []) ⟨1, 1, 1⟩ 1 (none : Option (ResumePoint Unit))).run
      once.Returns Serves {} (.error "") s ∧ once.Returns Serves s (.error "") t ∧
        ¬ t.executed.length ≤ 1 + 0 :=
  ⟨⟨_, driven_twice, by decide, .head _⟩,
    ⟨_, .returned 1 .new (Program.returns_after serves_satisfies (n := 12) rfl), by decide⟩,
    _, _, Program.returns_after serves_misjudges (n := 12) rfl,
    Program.returns_after serves_misjudges (n := 12) rfl, by decide⟩

end Tinyflows.Adaptive
