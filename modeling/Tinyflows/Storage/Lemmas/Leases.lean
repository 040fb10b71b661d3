import Tinyflows.Storage.Leases

/-!
# What the lease operations write
-/

namespace Tinyflows.Storage
open Lib Repo Option Except

/-! ## The closures -/

variable {rd ep : Nat} {b af : Body} {holder : String} {op : LeaseOp}

theorem now_eq {t} (h : now rd = .ok t) : t = rd := by
  unfold now at h
  split at h
  · exact (ok.inj h).symm
  · cases h

theorem deadline_eq {tm d} (h : deadline rd tm = .ok d) : d = (↑rd, rd + tm) := by
  simp only [deadline, bind, Except.bind, throw, throwThe, MonadExceptOf.throw, pure, Except.pure] at h
  split at h
  · cases h
  · split at h
    · cases h
    · next t ht =>
        split at h
        · cases h
        · rw [← Except.ok.inj h, now_eq ht]

theorem nextEpoch_eq {next} (h : nextEpoch ep = .ok next) : next = ep + 1 := by
  unfold nextEpoch at h
  split at h
  · exact (ok.inj h).symm
  · cases h

theorem Body.live_iff {now} : b.live now = true ↔ now < b.expiresMs ∧ b.released = false := by
  simp [Body.live]

namespace Leases

variable {af : Body} {be : Option Body} {holder : String} {rd ep : Nat} {tm : Int}
  {cl : Clock}

/-- The record a holder acquires: the first one, its own live one extended, or the one after a record
that is no longer live. -/
theorem acquireBody_cases (h : acquireBody holder tm rd be = .ok (some af)) :
    af.holder = holder ∧ af.released = false ∧ af.expiresMs = rd + tm ∧
      (be = none ∧ af.epoch = 1 ∨
        ∃ b, be = some b ∧ (b.live rd = true ∧ b.holder = holder ∧ af.epoch = b.epoch ∨
          b.live rd = false ∧ af.epoch = b.epoch + 1)) := by
  simp only [acquireBody, bind, Except.bind, pure, Except.pure] at h
  split at h
  · cases h
  · next d hd =>
      obtain rfl := deadline_eq hd
      cases be with
      | none =>
        cases Except.ok.inj h
        exact ⟨rfl, rfl, rfl, .inl ⟨rfl, rfl⟩⟩
      | some b =>
        simp only at h
        split at h
        · next hl =>
            split at h
            · next hh =>
                cases Except.ok.inj h
                exact ⟨rfl, rfl, rfl, .inr ⟨b, rfl, .inl ⟨hl, hh, rfl⟩⟩⟩
            · cases h
        · next hl =>
            split at h
            · cases h
            · next e he =>
                cases Except.ok.inj h
                rw [Bool.not_eq_true] at hl
                exact ⟨rfl, rfl, rfl, .inr ⟨b, rfl, .inr ⟨hl, nextEpoch_eq he⟩⟩⟩

theorem acquireBody_grants (h : acquireBody holder tm rd be = .ok (some af)) :
    Grants holder tm rd be af := by
  obtain ⟨hh, hr, hx, ⟨rfl, he⟩ | ⟨b, rfl, ⟨hl, hH, he⟩ | ⟨hl, he⟩⟩⟩ := acquireBody_cases h
  · exact .first ⟨hh, he, hr, hx⟩
  · obtain ⟨ht, hu⟩ := Body.live_iff.mp hl
    exact .extended ⟨hH, rfl, hu, ht⟩ ⟨hh, he, hr, hx⟩
  · exact .taken (.inl hl) ⟨hh, he, hr, hx⟩

theorem acquireWithBody_grants {re c c'} (h : acquireWithBody re cl c be = (.ok (some af), c')) :
    Grants re.holder re.ttlMs (cl c.attempts) be af := by
  unfold acquireWithBody at h
  split at h
  · cases h
  · next d₁ d₂ hd =>
      cases deadline_eq hd
      simp only at h
      cases be with
      | none =>
        simp only [Prod.mk.injEq, ok.injEq, some.injEq] at h
        obtain ⟨rfl, -⟩ := h
        exact .first ⟨rfl, rfl, rfl, rfl⟩
      | some b =>
        simp only at h
        split at h
        · next hh =>
            obtain ⟨hl, hr⟩ := Body.live_iff.mp hh.1
            simp only [Prod.mk.injEq, ok.injEq, some.injEq] at h
            obtain ⟨rfl, -⟩ := h
            exact .extended ⟨hh.2.1, rfl, hr, hl⟩ ⟨rfl, rfl, rfl, rfl⟩
        · split at h
          · simp at h
          · next hfree =>
              split at h
              · simp at h
              · next e he =>
                  simp only [Prod.mk.injEq, ok.injEq, some.injEq] at h
                  obtain ⟨rfl, -⟩ := h
                  refine .taken ?_ ⟨rfl, nextEpoch_eq he, rfl, rfl⟩
                  cases hl : b.live (cl c.attempts) with
                  | false => exact .inl rfl
                  | true => exact .inr (by_contra fun hne => hfree ⟨hl, .inl hne⟩)

theorem heldBy_iff {b} : Body.heldBy b holder ep rd = true ↔ b.IsTenure holder ep rd := by
  simp only [Body.heldBy, Bool.and_eq_true, decide_eq_true_eq, Body.live_iff]
  constructor
  · rintro ⟨⟨hh, he⟩, hl, hr⟩
    exact ⟨hh, he, hr, hl⟩
  · rintro ⟨hh, he, hr, hl⟩
    exact ⟨⟨hh, he⟩, hl, hr⟩

theorem renewBody_tenure (h : renewBody holder ep tm rd be = .ok (some af)) :
    ∃ b, be = some b ∧ b.IsTenure holder ep rd ∧ af = { b with expiresMs := rd + tm } := by
  simp only [renewBody, bind, Except.bind, pure, Except.pure] at h
  split at h
  · cases h
  · next d hd =>
      obtain rfl := deadline_eq hd
      obtain ⟨b, hb, rfl⟩ := map_eq_some_iff.mp (Except.ok.inj h)
      obtain ⟨he, hh⟩ := filter_eq_some_iff.mp hb
      exact ⟨b, he, heldBy_iff.mp hh, rfl⟩

theorem releaseBody_tenure (h : releaseBody holder ep rd be = some af) :
    ∃ b, be = some b ∧ b.IsTenure holder ep rd ∧
      af = { b with expiresMs := rd, released := true } := by
  obtain ⟨b, hb, rfl⟩ := map_eq_some_iff.mp h
  obtain ⟨he, hh⟩ := filter_eq_some_iff.mp hb
  exact ⟨b, he, heldBy_iff.mp hh, rfl⟩

end Leases

/-! ## The records an operation replaces -/

theorem Body.Precedes.refl (b : Body) : b.Precedes b :=
  ⟨le_rfl, fun _ => rfl, fun _ _ => rfl⟩

theorem Body.Precedes.trans {a c : Body} (ha : a.Precedes b) (hB : b.Precedes c) : a.Precedes c := by
  have hs : c.epoch = a.epoch → b.epoch = a.epoch ∧ c.epoch = b.epoch := by
    have := ha.epoch
    have := hB.epoch
    omega
  refine ⟨Nat.le_trans ha.epoch hB.epoch, fun h => ?_, fun h hr => ?_⟩
  · obtain ⟨hb, hc⟩ := hs h
    rw [hB.holder hc, ha.holder hb]
  · obtain ⟨hb, hc⟩ := hs h
    have hba := ha.released hb hr
    rw [hB.released hc (by rw [hba]; exact hr), hba]

theorem Body.IsTenure.precedes (h : b.IsTenure holder ep rd) (he : af.epoch = b.epoch)
    (hh : af.holder = b.holder) : b.Precedes af := by
  refine ⟨Nat.le_of_eq he.symm, fun _ => hh, fun _ hr => ?_⟩
  rw [h.unreleased] at hr
  cases hr

theorem Grants.precedes {tm} (h : Grants holder tm rd (some b) af) : b.Precedes af := by
  cases h with
  | extended ht ha => exact ht.precedes ha.epoch (ha.holder.trans ht.holder.symm)
  | taken _ ha =>
    have := ha.epoch
    exact ⟨by omega, fun h => by omega, fun h => by omega⟩

theorem LeaseOp.Effect.precedes (h : op.Effect rd (some b) af) : b.Precedes af := by
  unfold LeaseOp.Effect at h
  split at h
  · exact h.precedes
  · exact h.precedes
  · obtain ⟨b', hb, ht, rfl⟩ := h
    cases hb
    exact ht.precedes rfl rfl
  · obtain ⟨-, b', hb, ht, rfl⟩ := h
    cases hb
    exact ht.precedes rfl rfl

theorem Grants.live {tm} (h : Grants holder tm rd (some b) af) (he : af.epoch = b.epoch) :
    b.released = false ∧ rd < b.expiresMs := by
  cases h with
  | extended ht _ => exact ⟨ht.unreleased, ht.live⟩
  | taken _ ha =>
    have := ha.epoch
    omega

theorem LeaseOp.Effect.live (h : op.Effect rd (some b) af) (he : af.epoch = b.epoch) :
    b.released = false ∧ rd < b.expiresMs := by
  unfold LeaseOp.Effect at h
  split at h
  · exact h.live he
  · exact h.live he
  · obtain ⟨b', hb, ht, rfl⟩ := h
    cases hb
    exact ⟨ht.unreleased, ht.live⟩
  · obtain ⟨-, b', hb, ht, rfl⟩ := h
    cases hb
    exact ⟨ht.unreleased, ht.live⟩

end Tinyflows.Storage
