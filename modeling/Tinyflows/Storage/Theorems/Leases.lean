import Tinyflows.Storage.Lemmas.Leases

/-!
# Leases fence out stale holders

Whatever the operations and their clocks do, and however they interleave.
-/

namespace Tinyflows.Storage
open Lib Repo

/-! ## Every operation keeps to its effect -/

/-- Records are never dropped, versions move with every write, and the log grows. -/
structure LeaseStore.Follows (s t : LeaseStore) : Prop where
  docs : ∀ key, Documents.Follows key s.docs t.docs
  log : s.log ⊆ t.log

theorem LeaseStore.Follows.refl (s : LeaseStore) : s.Follows s :=
  ⟨fun key => .refl key _, List.Subset.refl _⟩

variable {s t : LeaseStore} {i : Nat} {op : LeaseOp}

theorem LeaseStore.Follows.trans {u} (h : s.Follows t) (h' : t.Follows u) : s.Follows u :=
  ⟨fun key => (h.docs key).trans (h'.docs key), List.Subset.trans h.log h'.log⟩

/-- Between two calls of an operation nothing happens, or one write of it. -/
def LeaseOp.Writes (op : LeaseOp) (i : Nat) (s t : LeaseStore) : Prop :=
  t = s ∨ ∃ n after pre, op.Effect (op.clock n) (s.record op.key) after ∧
    t = s.commit i [.put op.key after pre] (some (op.key, after))

theorem LeaseOp.Writes.follows (h : op.Writes i s t) : s.Follows t := by
  rcases h with rfl | ⟨n, after, pre, -, rfl⟩
  · exact .refl t
  · exact ⟨fun key => .put key s.docs op.key after pre, List.subset_append_left _ _⟩

def leaseDiscipline : Discipline leaseSystem where
  inv _ := True
  rely _ := LeaseStore.Follows
  guarantee := LeaseOp.Writes
  post op i s r := ∀ lease, r.granted = some lease →
    ∃ b, (i, op.key, b) ∈ s.log ∧ lease = .fromBody b

theorem leaseDiscipline_onDocuments (op i) : OnDocuments i (leaseDiscipline.terms op i) :=
  ⟨id, fun _ => .inl rfl⟩

section Effect

variable {σ : Type} {f : σ → Option Body → Except StoreError (Option Body) × σ}
  (h : ∀ {c c' before after}, f c before = (.ok (some after), c') →
    ∃ n, op.Effect (op.clock n) before after)
include h

theorem updates_of_effect :
    Updates i (leaseDiscipline.terms op i) (fun _ => True) op.key (fun body => some (op.key, body)) f
      (fun s r => ∀ body, r.1 = .ok (some body) → (i, op.key, body) ∈ s.log) where
  known _ _ _ := trivial
  failed _ _ := by simp
  declined _ _ _ := by simp
  written {s t c c' body pre} _ _ _ _ hr hf ho _ := by
    have hs : Identifies op.key s t := by
      intro a b ha hb hv
      obtain ⟨b', hb', -, he⟩ := hr.docs op.key a ha
      rw [hb] at hb'
      cases hb'
      exact he hv
    rw [hs.lookup_eq ho] at hf
    obtain ⟨n, he⟩ := h hf
    refine ⟨.inr ⟨n, _, _, he, rfl⟩, trivial, ?_⟩
    intro body hB
    cases Except.ok.inj hB
    simp

theorem meets_of_update {c g} (hg : ∀ r, ∃ a, g r = .done a ∧
      ∀ ls, a.granted = some ls → ∃ b, r.1 = .ok (some b) ∧ ls = .fromBody b) :
    (op.repo.update f c >>= g).Meets (leaseDiscipline.terms op i) (leaseDiscipline.post op i) s := by
  refine Program.Meets.bind trivial
    ((updates_of_effect h).loop (leaseDiscipline_onDocuments op i) trivial _ c) ?_
  intro r t _ hl
  obtain ⟨a, ha, hr⟩ := hg r
  rw [ha]
  intro ls he
  obtain ⟨b, hb, rfl⟩ := hr ls he
  exact ⟨b, hl b hb, rfl⟩

end Effect

theorem granted_lease_map {r : Except StoreError (Option Body)} {l}
    (h : (LeaseResult.lease (r.map (·.map Lease.fromBody))).granted = some l) :
    ∃ b, r = .ok (some b) ∧ l = .fromBody b := by
  cases r with
  | error e => cases h
  | ok body =>
    obtain ⟨b, rfl, rfl⟩ := Option.map_eq_some_iff.mp h
    exact ⟨b, rfl, rfl⟩

theorem lease_begins (op : LeaseOp) (i s) :
    op.program.Meets (leaseDiscipline.terms op i) (leaseDiscipline.post op i) s := by
  unfold LeaseOp.program
  cases hr : op.request with
  | acquire holder ttl =>
    simp only [Leases.acquire, bind_assoc, pure_bind]
    refine meets_of_update (fun {c c' before after} hf => ?_) fun r => ⟨_, rfl, fun _ => granted_lease_map⟩
    simp only [LeaseOp.Effect, hr]
    exact ⟨c, Leases.acquireBody_grants (Prod.mk.inj hf).1⟩
  | acquireWith req =>
    simp only [Leases.acquireWith, bind_assoc]
    refine meets_of_update (fun {c c' before after} hf => ?_) fun r => ?_
    · simp only [LeaseOp.Effect, hr]
      exact ⟨c.attempts, Leases.acquireWithBody_grants hf⟩
    · obtain ⟨e | _ | b, c⟩ := r
      · exact ⟨_, rfl, fun _ h => by cases h⟩
      · cases hs : c.seen with
        | none => exact ⟨_, by simp only [hs]; rfl, fun _ h => by cases h⟩
        | some body => exact ⟨_, by simp only [hs]; rfl, fun _ h => by cases h⟩
      · exact ⟨_, rfl, fun _ h => ⟨b, rfl, (Option.some.inj h).symm⟩⟩
  | renew holder epoch ttl =>
    simp only [Leases.renew, bind_assoc, pure_bind]
    refine meets_of_update (fun {c c' before after} hf => ?_) fun r => ⟨_, rfl, fun _ => granted_lease_map⟩
    simp only [LeaseOp.Effect, hr]
    exact ⟨c, Leases.renewBody_tenure (Prod.mk.inj hf).1⟩
  | release holder epoch =>
    simp only [Leases.release]
    cases hn : now (op.clock 0) with
    | error e => exact fun _ h => by cases h
    | ok t =>
      simp only [bind_assoc, pure_bind]
      refine meets_of_update (fun {c c' before after} hf => ?_) fun r => ⟨_, rfl, fun _ h => by cases h⟩
      simp only [LeaseOp.Effect, hr]
      rw [now_eq hn] at hf
      exact ⟨0, rfl, Leases.releaseBody_tenure (Except.ok.inj (Prod.mk.inj hf).1)⟩

theorem leaseDiscipline_kept : leaseDiscipline.Kept where
  refl _ := LeaseStore.Follows.refl
  trans _ {_ _ _} h h' := LeaseStore.Follows.trans h h'
  relies _ _ h := LeaseOp.Writes.follows h
  unused _ _ _ _ := trivial
  begins op i s _ _ := lease_begins op i s

theorem lease_settled {w : LeaseWorld} (h : Runs leaseSystem { store := s } w) :
    leaseDiscipline.Settled w :=
  leaseDiscipline_kept.settled_runs (Discipline.settled_initial trivial fun _ => trivial) h

/-! ## Fencing -/

theorem LeaseOp.Writes.record (h : op.Writes i s t) (key) {b}
    (hb : s.record key = some b) : ∃ b', t.record key = some b' ∧ b.Precedes b' := by
  rcases h with rfl | ⟨n, after, pre, he, rfl⟩
  · exact ⟨b, hb, .refl b⟩
  · by_cases hk : key = op.key
    · subst hk
      rw [hb] at he
      exact ⟨after, by simp [LeaseStore.record], he.precedes⟩
    · refine ⟨b, ?_, .refl b⟩
      simp only [LeaseStore.record, Store.commit_docs, List.foldl_cons, List.foldl_nil,
        lookup_apply_put_ne hk]
      exact hb

/-- For every interleaving of acquisitions, renewals and releases: a record is only ever followed by
one with a later epoch, or by the same tenure's, which has the same holder and stays as it is once
released; a call that writes has its operation's effect on the record stored at that moment, and keeps
that record's epoch only if the tenure is not released and is live on the reading that the new expiry is
counted from; and a lease that was handed out was written by that call. -/
theorem lease_fencing {s₀ : LeaseStore} {w : LeaseWorld} (h : Runs leaseSystem { store := s₀ } w) :
    (∀ w', Runs leaseSystem w w' → ∀ key b, w.store.record key = some b →
      ∃ b', w'.store.record key = some b' ∧ b.Precedes b') ∧
    (∀ i op w', Calls leaseSystem i op w w' → w'.store ≠ w.store →
      ∃ n after, w'.store.record op.key = some after ∧
        op.Effect (op.clock n) (w.store.record op.key) after ∧
        ∀ b, w.store.record op.key = some b → after.epoch = b.epoch →
          b.released = false ∧ op.clock n < b.expiresMs) ∧
    (∀ i op r lease, w.running[i]? = some (op, .done r) → r.granted = some lease →
      ∃ b, (i, op.key, b) ∈ w.store.log ∧ lease = .fromBody b) := by
  have hsettled := lease_settled h
  refine ⟨fun w' hruns key => ?_, fun i op w' hcalls hne => ?_, fun i op r lease hdone hgranted => ?_⟩
  · refine leaseDiscipline_kept.runs hsettled hruns
      (P := fun s t => ∀ b, s.record key = some b → ∃ b', t.record key = some b' ∧ b.Precedes b')
      (fun s b hb => ⟨b, hb, .refl b⟩) (fun hst htu b hb => ?_) fun _ hw b hb => hw.record key hb
    obtain ⟨b', hb', hbb'⟩ := hst b hb
    obtain ⟨b'', hb'', hb'b''⟩ := htu b' hb'
    exact ⟨b'', hb'', hbb'.trans hb'b''⟩
  · obtain heq | ⟨n, after, pre, heffect, heq⟩ := hsettled.calls hcalls
    · exact absurd heq hne
    · refine ⟨n, after, by rw [heq]; simp [LeaseStore.record], heffect, fun b hb hepoch => ?_⟩
      rw [hb] at heffect
      exact heffect.live hepoch
  · refine hsettled.returned hdone (fun hrely hpost lease hl => ?_) lease hgranted
    obtain ⟨b, hb, rfl⟩ := hpost lease hl
    exact ⟨b, hrely.log hb, rfl⟩

def firstAcquisition : LeaseOp where
  key := "job"
  attempts := 1
  clock _ := 100
  request := .acquire "worker" 50

def firstRecord : Body := { holder := "worker", epoch := 1, expiresMs := 150 }

theorem first_epoch_fenced : ∃ w : LeaseWorld, Runs leaseSystem { store := {} } w ∧
    w.store.record "job" = some firstRecord ∧
    ∀ w', Runs leaseSystem w w' → ∃ b', w'.store.record "job" = some b' ∧ firstRecord.Precedes b' := by
  have hstart : Runs leaseSystem { store := {} }
      { store := {}, running := [(firstAcquisition, firstAcquisition.program)] } :=
    .single (.start firstAcquisition)
  have hread := hstart.tail (.call (.intro (i := 0) (r := .ok none) rfl ⟨rfl, .inl rfl⟩))
  have hwrite := hread.tail (.call (.intro (i := 0) (r := .ok ()) rfl (.inl ⟨rfl, rfl, rfl⟩)))
  exact ⟨_, hwrite, rfl, fun w' h' => (lease_fencing hwrite).1 w' h' "job" firstRecord rfl⟩

end Tinyflows.Storage
