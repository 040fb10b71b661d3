import Mathlib.Data.List.Perm.Subperm
import Mathlib.Dynamics.PeriodicPts.Defs
import Mathlib.Logic.Relation
import Tinyflows.Adaptive.Families

/-!
# One offer for each family
-/

namespace Tinyflows.Adaptive
open Lib Relation List Function

variable {ι : Type} [DecidableEq ι] {v : Variants ι} {a b id m r : ι} {family : List ι} {next : Nat}

/-! ## Families -/

namespace Variants

/-- Joined by steps from parent to variant, taken either way. -/
def SameFamily (v : Variants ι) : ι → ι → Prop :=
  EqvGen fun parent variant => v.parentOf variant = some parent

def up (v : Variants ι) (id : ι) : ι := (v.parentOf id).getD id

def root (v : Variants ι) (id : ι) : ι := v.climb MAX_LINEAGE_DEPTH id

/-- The walk up from the workflow is not cut off: it gets to the root of the family, or onto a cycle. -/
def Rooted (v : Variants ι) (id : ι) : Prop := v.root id ∈ periodicPts v.up

/-- The family of the workflow has at most `MAX_FAMILY` members. -/
def Small (v : Variants ι) (id : ι) : Prop :=
  ∀ members : List ι, members.Nodup → (∀ m ∈ members, v.SameFamily m id) → members.length ≤ MAX_FAMILY

theorem mem_childrenOf : m ∈ v.childrenOf id ↔ v.parentOf m = some id := by
  unfold childrenOf parentOf
  rw [lookup_eq_some_iff, mem_map]
  constructor
  · rintro ⟨x, hx, rfl⟩
    obtain ⟨hx, hi⟩ := mem_filter.mp hx
    obtain ⟨before, after, he⟩ := append_of_mem hx
    refine ⟨before, after, by rw [he]; simpa [Prod.ext_iff] using hi, fun y hy => ?_⟩
    have hn := v.nodup
    rw [he, map_append, nodup_append] at hn
    exact bne_iff_ne.mpr (hn.2.2 y.1 (mem_map_of_mem hy) x.1 (by simp)).symm
  · rintro ⟨before, after, he, -⟩
    exact ⟨(m, id), by simp [he], rfl⟩

theorem up_of_parentOf (h : v.parentOf b = some a) : v.up b = a := by simp [up, h]

theorem climb_eq (v : Variants ι) (n id) : v.climb n id = v.up^[n] id := by
  induction n generalizing id with
  | zero => rfl
  | succ n ih =>
    rw [climb, iterate_succ_apply]
    have hf (h : v.up id = id) : v.up^[n] id = id := iterate_fixed h n
    cases hp : v.parentOf id with
    | none => rw [show v.up id = id by simp [up, hp], hf (by simp [up, hp])]
    | some parent =>
      have hu := up_of_parentOf hp
      dsimp only
      split_ifs with hn
      · rw [hu, ih]
      · rw [not_not.mp hn] at hu
        rw [hu, hf hu]

theorem sameFamily_up (v : Variants ι) (id) : v.SameFamily (v.up id) id := by
  unfold up
  cases hp : v.parentOf id with
  | none => exact .refl _
  | some parent => exact .rel _ _ hp

theorem sameFamily_iterate (v : Variants ι) (n id) : v.SameFamily (v.up^[n] id) id := by
  induction n with
  | zero => exact .refl _
  | succ n ih =>
    rw [iterate_succ_apply']
    exact (v.sameFamily_up _).trans _ _ _ ih

theorem sameFamily_root (v : Variants ι) (id) : v.SameFamily (v.root id) id := by
  rw [root, climb_eq]
  exact v.sameFamily_iterate _ id

/-- `r` is an ancestor of the workflow, or the workflow itself. -/
def Descends (v : Variants ι) (r m : ι) : Prop := ∃ n, v.up^[n] m = r

theorem descends_congr (hr : r ∈ periodicPts v.up) (h : v.parentOf b = some a) :
    v.Descends r a ↔ v.Descends r b := by
  have hu := up_of_parentOf h
  constructor
  · rintro ⟨n, hn⟩
    exact ⟨n + 1, by rwa [iterate_succ_apply, hu]⟩
  · rintro ⟨_ | n, hn⟩
    · -- `b` is the ancestor itself: its parent gets back to it around the cycle
      obtain rfl : b = r := hn
      obtain ⟨_ | k, hk, hp⟩ := hr
      · cases hk
      · exact ⟨k, by rw [← hu]; exact hp⟩
    · exact ⟨n, by rwa [iterate_succ_apply, hu] at hn⟩

/-- A workflow that is its own ancestor is an ancestor of its whole family. -/
theorem sameFamily_iff_descends (hr : r ∈ periodicPts v.up) :
    v.SameFamily m r ↔ v.Descends r m := by
  refine ⟨fun h => ?_, fun ⟨n, hn⟩ => hn ▸ (v.sameFamily_iterate n m).symm⟩
  have hall : ∀ {a b}, v.SameFamily a b → (v.Descends r a ↔ v.Descends r b) := fun h => by
    induction h with
    | rel a b hp => exact descends_congr hr hp
    | refl => rfl
    | symm _ _ _ ih => exact ih.symm
    | trans _ _ _ _ _ ih ih' => exact ih.trans ih'
  exact (hall h).mpr ⟨0, rfl⟩

/-! ## The walk down -/

/-- The members found so far descend from `r`, and the first `next` of them have been expanded. -/
structure Widened (v : Variants ι) (r : ι) (next : Nat) (family : List ι) : Prop where
  nodup : family.Nodup
  root : r ∈ family
  descends : ∀ m ∈ family, v.Descends r m
  expanded : ∀ p ∈ family.take next, ∀ m, v.parentOf m = some p → m ∈ family

theorem Widened.step (h : v.Widened r next family) (hn : next < family.length) :
    v.Widened r (next + 1) ((v.childrenOf family[next]).foldl pushKey family) where
  nodup := nodup_foldl_pushKey h.nodup _
  root := mem_foldl_pushKey.mpr (.inl h.root)
  descends m hm := by
    rcases mem_foldl_pushKey.mp hm with hm | hm
    · exact h.descends m hm
    · obtain ⟨n, hd⟩ := h.descends _ (getElem_mem hn)
      exact ⟨n + 1, by rwa [iterate_succ_apply, up_of_parentOf (mem_childrenOf.mp hm)]⟩
  expanded p hp m hm := by
    obtain ⟨more, he⟩ := prefix_foldl_pushKey family (v.childrenOf family[next])
    rw [← he, take_append_of_le_length hn, take_succ_eq_append_getElem hn] at hp
    rcases mem_append.mp hp with hp | hp
    · exact mem_foldl_pushKey.mpr (.inl (h.expanded p hp m hm))
    · rw [mem_singleton] at hp
      exact mem_foldl_pushKey.mpr (.inr (mem_childrenOf.mpr (hp ▸ hm)))

/-- The loop ends with the members expanded, or with as many as a family may have. -/
theorem Widened.loop {rounds} (h : v.Widened r next family) (hr : rounds + next = MAX_FAMILY) :
    ∃ next', v.Widened r next' (v.widen rounds next family) ∧
      ((v.widen rounds next family).length ≤ next' ∨ MAX_FAMILY ≤ (v.widen rounds next family).length) := by
  induction rounds generalizing next family with
  | zero =>
    refine ⟨next, h, ?_⟩
    change family.length ≤ _ ∨ _ ≤ family.length
    omega
  | succ rounds ih =>
    rw [widen]
    split_ifs with hc
    · exact ih (h.step hc.1) (by omega)
    · exact ⟨next, h, by omega⟩

theorem Widened.all (h : v.Widened r next family) (hn : family.length ≤ next) (hm : v.Descends r m) :
    m ∈ family := by
  obtain ⟨n, hm⟩ := hm
  induction n generalizing m with
  | zero =>
    rw [show m = r from hm]
    exact h.root
  | succ n ih =>
    have hu := ih (m := v.up m) hm
    unfold up at hu
    cases hp : v.parentOf m with
    | none => simpa [hp] using hu
    | some parent =>
      rw [hp, Option.getD_some] at hu
      exact h.expanded parent (by rwa [take_of_length_le hn]) m hp

theorem lineage_widened (v : Variants ι) (id) : ∃ next, v.Widened (v.root id) next (v.lineage id) ∧
    ((v.lineage id).length ≤ next ∨ MAX_FAMILY ≤ (v.lineage id).length) :=
  Widened.loop
    ⟨nodup_singleton _, mem_singleton_self _, fun m hm => ⟨0, mem_singleton.mp hm⟩, by simp⟩ rfl

theorem nodup_lineage (v : Variants ι) (id) : (v.lineage id).Nodup :=
  let ⟨_, h, _⟩ := v.lineage_widened id
  h.nodup

theorem descends_of_mem_lineage (h : m ∈ v.lineage id) : v.Descends (v.root id) m :=
  let ⟨_, hw, _⟩ := v.lineage_widened id
  hw.descends m h

theorem sameFamily_of_descends (h : v.Descends (v.root id) m) : v.SameFamily m id := by
  obtain ⟨n, hn⟩ := h
  exact ((v.sameFamily_iterate n m).symm.trans _ _ _ (hn ▸ .refl _)).trans _ _ _ (v.sameFamily_root id)

/-- Everything that descends from the root is found, unless the family is too large. -/
theorem Small.mem_lineage (hs : v.Small id) (h : v.Descends (v.root id) m) : m ∈ v.lineage id := by
  obtain ⟨next, hw, hn | hn⟩ := v.lineage_widened id
  · exact hw.all hn h
  · by_contra hm
    have hl := hs (m :: v.lineage id) (nodup_cons.mpr ⟨hm, hw.nodup⟩) fun x hx => by
      rcases mem_cons.mp hx with rfl | hx
      · exact sameFamily_of_descends h
      · exact sameFamily_of_descends (hw.descends x hx)
    rw [length_cons] at hl
    omega

/-- The lineage is the whole family, and within the bound, exactly if neither walk is cut off. -/
theorem lineage_whole_iff (v : Variants ι) (id) :
    ((v.lineage id).length ≤ MAX_FAMILY ∧ ∀ m, m ∈ v.lineage id ↔ v.SameFamily m id) ↔
      v.Rooted id ∧ v.Small id := by
  constructor
  · rintro ⟨hl, hm⟩
    constructor
    · have hu := (hm _).mpr ((v.sameFamily_up (v.root id)).trans _ _ _ (v.sameFamily_root id))
      obtain ⟨n, hn⟩ := descends_of_mem_lineage hu
      exact mk_mem_periodicPts n.succ_pos hn
    · exact fun members hn hf =>
        (subperm_of_subset hn fun m h => (hm m).mpr (hf m h)).length_le.trans hl
  · rintro ⟨hr, hs⟩
    have hm (m : ι) : m ∈ v.lineage id ↔ v.SameFamily m id :=
      ⟨fun h => sameFamily_of_descends (descends_of_mem_lineage h), fun h => hs.mem_lineage
        ((sameFamily_iff_descends hr).mp (h.trans _ _ _ (v.sameFamily_root id).symm))⟩
    exact ⟨hs _ (v.nodup_lineage id) fun m => (hm m).mp, hm⟩

end Variants

/-! ## The offers -/

variable {α σ R : Type} [LinearOrder R] (v) (score : ι → σ) (rank : σ → R) (key : α → ι)
  (candidates : List α) {settled : List ι} {c k : α}

/-- The order among the members of a lineage: by the rank of the score, and then by the place. -/
def Ahead (lineage : List ι) (a b : ι) : Prop :=
  rank (score a) ≤ rank (score b) ∧
    (rank (score b) ≤ rank (score a) → lineage.idxOf a ≤ lineage.idxOf b)

/-- The first candidate of its family. -/
def Leads (c : α) : Prop := candidates.find? (key · ∈ v.lineage (key c)) = some c

/-- No candidate of the family comes before `k`. -/
def BestOffer (c k : α) : Prop :=
  ∀ d ∈ candidates, v.SameFamily (key d) (key c) → Ahead score rank (v.lineage (key c)) (key k) (key d)

def firstOffered (lineage : List ι) : Option ι :=
  lineage.find? fun id => candidates.any (key · = id)

/-- The champion of the candidate's family can be offered, or else the first member that can be is the
best of those. -/
def Fitting (c : α) : Prop :=
  (∃ k ∈ candidates, champion score rank (v.lineage (key c)) = some (key k)) ∨
    ∀ k ∈ candidates, firstOffered key candidates (v.lineage (key c)) = some (key k) →
      BestOffer v score rank key candidates c k

/-- `k` is what the code picks in the family of `c`. -/
def Chosen (c k : α) : Prop :=
  champion score rank (v.lineage (key c)) = some (key k) ∨
    (∀ d ∈ candidates, champion score rank (v.lineage (key c)) ≠ some (key d)) ∧
      firstOffered key candidates (v.lineage (key c)) = some (key k)

/-- What the loop has made of the candidates `done`. -/
structure Collapsed (done : List α) (s : List α × List ι) : Prop where
  settled : ∀ x, x ∈ s.2 ↔ ∃ c ∈ done, v.SameFamily x (key c)
  apart : s.1.Pairwise fun a b => ¬v.SameFamily (key a) (key b)
  covered : ∀ c ∈ done, ∃ k ∈ s.1, v.SameFamily (key k) (key c)
  kept : ∀ k ∈ s.1, key k ∈ s.2 ∧ k ∈ candidates ∧ ∃ c ∈ candidates, Leads v key candidates c ∧
    v.SameFamily (key k) (key c) ∧ Chosen v score rank key candidates c k

variable {v key candidates}

theorem offerFor_spec (hl : ∀ m, m ∈ v.lineage (key c) ↔ v.SameFamily m (key c)) (hc : c ∈ candidates) :
    let k := offerFor score rank key candidates (v.lineage (key c)) c
    k ∈ candidates ∧ v.SameFamily (key k) (key c) ∧ Chosen v score rank key candidates c k := by
  have hi : key c ∈ v.lineage (key c) := (hl _).mpr (.refl _)
  obtain ⟨best, hb⟩ : ∃ best, champion score rank (v.lineage (key c)) = some best :=
    Option.ne_none_iff_exists'.mp fun hn => ne_nil_of_mem hi (argmin_eq_none.mp hn)
  unfold offerFor
  dsimp only
  rw [hb, Option.getD_some]
  cases hf : candidates.find? (key · = best) with
  | some k =>
    obtain rfl : key k = best := by simpa using find?_some hf
    exact ⟨mem_of_find?_eq_some hf, (hl _).mp (argmin_mem hb), .inl hb⟩
  | none =>
    obtain ⟨k, hk⟩ : ∃ k, ((v.lineage (key c)).findSome? fun id => candidates.find? (key · = id)) =
        some k := by
      refine Option.isSome_iff_exists.mp (findSome?_isSome_iff.mpr ⟨_, hi, ?_⟩)
      exact find?_isSome.mpr ⟨c, hc, by simp⟩
    rw [hk, Option.none_or, Option.getD_some]
    obtain ⟨before, id, after, he, hd, hz⟩ := findSome?_eq_some_iff.mp hk
    obtain rfl : key k = id := by simpa using find?_some hd
    have hk := mem_of_find?_eq_some hd
    refine ⟨hk, (hl _).mp (he ▸ mem_append_right _ mem_cons_self), .inr ⟨fun d hd hq => ?_, ?_⟩⟩
    · exact find?_eq_none.mp hf d hd (by simpa using (Option.some.inj (hb.symm.trans hq)).symm)
    · rw [firstOffered, he, find?_append, find?_eq_none.mpr, Option.none_or]
      · exact find?_cons_of_pos (any_eq_true.mpr ⟨k, hk, by simp⟩)
      · intro x hx ha
        obtain ⟨y, hy, hq⟩ := any_eq_true.mp ha
        exact find?_eq_none.mp (hz x hx) y hy hq

theorem collapseOne_new (kept) (hl : ∀ m, m ∈ v.lineage (key c) ↔ v.SameFamily m (key c))
    (hc : c ∈ candidates) (hn : ∀ x ∈ settled, ¬v.SameFamily x (key c)) :
    ∃ k ∈ candidates, v.SameFamily (key k) (key c) ∧ Chosen v score rank key candidates c k ∧
      collapseOne v score rank key candidates (kept, settled) c =
        (kept ++ [k], settled ++ v.lineage (key c)) := by
  have hi : key c ∉ settled := fun hi => hn _ hi (.refl _)
  have hm : key c ∈ v.lineage (key c) := (hl _).mpr (.refl _)
  unfold collapseOne
  dsimp only
  rw [if_neg hi]
  split_ifs with h1 hk
  · obtain ⟨x, hx⟩ : ∃ x, v.lineage (key c) = [x] :=
      length_eq_one_iff.mp (Nat.le_antisymm h1 (length_pos_of_mem hm))
    obtain rfl : key c = x := by simpa [hx] using hm
    exact ⟨c, hc, .refl _, .inl (by rw [hx]; rfl), by rw [hx]⟩
  · exact absurd (offerFor_spec score rank hl hc).2.1 (hn _ hk)
  · obtain ⟨ho, hf, hh⟩ := offerFor_spec score rank hl hc
    exact ⟨_, ho, hf, hh, rfl⟩

variable {score rank}

theorem Collapsed.step {done rest s} (hl : ∀ m, m ∈ v.lineage (key c) ↔ v.SameFamily m (key c))
    (h : Collapsed v score rank key candidates done s) (hc : done ++ c :: rest = candidates) :
    Collapsed v score rank key candidates (done ++ [c])
      (collapseOne v score rank key candidates s c) := by
  obtain ⟨kept, settled⟩ := s
  have hcm : c ∈ candidates := hc ▸ mem_append_right _ mem_cons_self
  by_cases hi : key c ∈ settled
  · have he : collapseOne v score rank key candidates (kept, settled) c = (kept, settled) := if_pos hi
    obtain ⟨d, hd, hf⟩ := (h.settled _).mp hi
    rw [he]
    refine ⟨fun x => (h.settled x).trans ⟨fun ⟨d, hd, hx⟩ => ⟨d, by simp [hd], hx⟩, ?_⟩, h.apart,
      fun e he => ?_, h.kept⟩
    · rintro ⟨e, he, hx⟩
      rcases mem_append.mp he with he | he
      · exact ⟨e, he, hx⟩
      · rw [mem_singleton.mp he] at hx
        exact ⟨d, hd, hx.trans _ _ _ hf⟩
    · rcases mem_append.mp he with he | he
      · exact h.covered e he
      · obtain ⟨k, hk, hm⟩ := h.covered d hd
        rw [mem_singleton.mp he]
        exact ⟨k, hk, hm.trans _ _ _ hf.symm⟩
  · have hn : ∀ x ∈ settled, ¬v.SameFamily x (key c) := by
      intro x hx hf
      obtain ⟨d, hd, hm⟩ := (h.settled x).mp hx
      exact hi ((h.settled _).mpr ⟨d, hd, hf.symm.trans _ _ _ hm⟩)
    have hleads : Leads v key candidates c := by
      rw [Leads, ← hc, find?_append, find?_eq_none.mpr, Option.none_or]
      · exact find?_cons_of_pos (decide_eq_true ((hl _).mpr (.refl _)))
      · exact fun d hd hm => hn _ ((h.settled _).mpr ⟨d, hd, .refl _⟩) ((hl _).mp (of_decide_eq_true hm))
    obtain ⟨k, hk, hf, hh, he⟩ := collapseOne_new score rank kept hl hcm hn
    rw [he]
    refine ⟨fun x => ?_, ?_, fun e he => ?_, fun e he => ?_⟩
    · have hx := h.settled x
      simp only [mem_append, hl, mem_singleton] at hx ⊢
      grind
    · refine pairwise_append.mpr ⟨h.apart, pairwise_singleton _ _, fun a ha b hb hm => ?_⟩
      rw [mem_singleton.mp hb] at hm
      exact hn _ (h.kept a ha).1 (hm.trans _ _ _ hf)
    · rcases mem_append.mp he with he | he
      · obtain ⟨a, ha, hm⟩ := h.covered e he
        exact ⟨a, mem_append_left _ ha, hm⟩
      · rw [mem_singleton.mp he]
        exact ⟨k, by simp, hf⟩
    · rcases mem_append.mp he with he | he
      · exact ⟨mem_append_left _ (h.kept e he).1, (h.kept e he).2⟩
      · rw [mem_singleton.mp he]
        exact ⟨mem_append_right _ ((hl _).mpr hf), hk, c, hcm, hleads, hf, hh⟩

theorem collapsed (hl : ∀ c ∈ candidates, ∀ m, m ∈ v.lineage (key c) ↔ v.SameFamily m (key c)) :
    Collapsed v score rank key candidates candidates
      (candidates.foldl (collapseOne v score rank key candidates) ([], [])) := by
  suffices ∀ done, done <+: candidates → Collapsed v score rank key candidates done
      (done.foldl (collapseOne v score rank key candidates) ([], [])) from this _ (prefix_refl _)
  intro done
  induction done using List.reverseRecOn with
  | nil => exact fun _ => ⟨by simp, .nil, by simp, by simp⟩
  | append_singleton done c ih =>
    rintro ⟨rest, hd⟩
    rw [append_assoc] at hd
    rw [foldl_concat]
    exact (ih ⟨_, hd⟩).step (hl c (hd ▸ by simp)) hd

theorem leads_unique (hl : ∀ c ∈ candidates, ∀ m, m ∈ v.lineage (key c) ↔ v.SameFamily m (key c)) {d}
    (hc : c ∈ candidates) (hd : d ∈ candidates) (h : Leads v key candidates c)
    (h' : Leads v key candidates d) (hs : v.SameFamily (key c) (key d)) : c = d := by
  have hp : (fun e => decide (key e ∈ v.lineage (key c))) = fun e => decide (key e ∈ v.lineage (key d)) := by
    funext e
    rw [decide_eq_decide, hl c hc, hl d hd]
    exact ⟨fun h => h.trans _ _ _ hs, fun h => h.trans _ _ _ hs.symm⟩
  rw [Leads, hp] at h
  exact Option.some.inj (h.symm.trans h')

theorem Variants.small_of_length (hr : v.Rooted id) (h : v.links.length < MAX_FAMILY) : v.Small id := by
  intro members hn hf
  have hm : members ⊆ v.root id :: v.links.map Prod.fst := by
    intro m hm
    rw [mem_cons, or_iff_not_imp_right]
    intro hl
    have hp : v.parentOf m = none :=
      lookup_eq_none_iff.mpr fun x hx => bne_iff_ne.mpr fun he => hl (he ▸ mem_map_of_mem hx)
    have hu : v.up m = m := by rw [up, hp]; rfl
    obtain ⟨n, hd⟩ :=
      (sameFamily_iff_descends hr).mp ((hf m hm).trans _ _ _ (v.sameFamily_root id).symm)
    rwa [iterate_fixed hu] at hd
  have hc := (subperm_of_subset hn hm).length_le
  rw [length_cons, length_map] at hc
  omega

/-- Two variants of the workflow 0, of which the second is the better one. -/
def twoVariants : Variants Nat := ⟨[(1, 0), (2, 0)], by decide⟩

def twoScores (n : Nat) : Nat := [0, 2, 1].getD n 3

def wideFamily : Variants Nat := ⟨(List.range 64).map fun n => (n + 1, 0), by decide +kernel⟩

def longChain : Variants Nat := ⟨(List.range 9).map fun n => (n + 1, n), by decide⟩

end Tinyflows.Adaptive
