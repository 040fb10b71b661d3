import Mathlib.Algebra.BigOperators.Group.List.Basic
import Mathlib.Data.List.Perm.Basic

/-!
# A bounded buffer of futures

A stream hands out the tasks `0, 1, …` in order, keeps at most `bound` of them in flight and yields
each one as it completes. Any of those in flight may be the next to complete.
-/

namespace Tinyflows.Lib
open List

/-- With `flight` running and `next` the first task not yet started, the tasks may complete in the
given order. -/
inductive Completes (bound total : Nat) : List Nat → Nat → List Nat → Prop
  | done : Completes bound total [] total []
  | start {flight : List Nat} {next : Nat} {order : List Nat} (room : flight.length < bound)
      (more : next < total) (rest : Completes bound total (flight ++ [next]) (next + 1) order) :
      Completes bound total flight next order
  | finish {flight : List Nat} {next i : Nat} {order : List Nat} (running : i ∈ flight)
      (rest : Completes bound total (flight.erase i) next order) :
      Completes bound total flight next (i :: order)

namespace Completes
variable {bo tt : Nat}

theorem perm_flight {fl od nx} (h : Completes bo tt fl nx od) :
    od.Perm (fl ++ range' nx (tt - nx)) := by
  induction h with
  | done => simp
  | @start fl nx od ro mo _ ih =>
    have hs : range' nx (tt - nx) =
        nx :: range' (nx + 1) (tt - (nx + 1)) := by
      rw [show tt - nx = (tt - (nx + 1)) + 1 by omega, range'_succ]
    rw [hs]
    simpa using ih
  | @finish fl nx i od ru _ ih =>
    calc i :: od
      _ |>.Perm (i :: (fl.erase i ++ range' nx (tt - nx))) := ih.cons i
      _ |>.Perm (fl ++ range' nx (tt - nx)) :=
          (perm_cons_erase ru).symm.append_right _

theorem perm_range {od} (h : Completes bo tt [] 0 od) : od.Perm (range tt) := by
  simpa [range_eq_range'] using h.perm_flight

theorem inOrder (hb : 0 < bo) (co) :
    ∀ nx, nx + co = tt → Completes bo tt [] nx (range' nx co) := by
  induction co with
  | zero =>
    rintro nx rfl
    exact done
  | succ co ih =>
    intro nx hn
    rw [range'_succ]
    apply start (by simpa using hb) (by omega)
    apply finish (by simp)
    simpa using ih (nx + 1) (by omega)

end Completes

/-! ## Cutting a list into chunks -/

structure Cut {α : Type} (n : Nat) (l : List α) (chunks : List (List α)) : Prop where
  flatten : chunks.flatten = l
  nonempty : ∀ chunk ∈ chunks, chunk ≠ []
  full : (chunks.length - 1) * n < l.length

variable {α : Type} {n : Nat}

variable {cn : List (List α)} {l : List α}

theorem length_flatten_of_full (h : ∀ ch ∈ cn, ch.length = n) : cn.flatten.length = cn.length * n := by
  rw [length_flatten, sum_eq_card_nsmul _ n (by simpa using h)]
  simp

theorem cut_go (hn : 0 < n) (xs) :
    ∀ (cu : Array α) (cl : Array (List α)), 0 < cu.size → cu.size ≤ n →
      (∀ ch ∈ cl.toList, ch.length = n) →
      Cut n (cl.toList.flatten ++ cu.toList ++ xs) (List.toChunks.go n xs cu cl) := by
  induction xs with
  | nil =>
    intro cu cl hC _ hc
    simp only [List.toChunks.go, Array.toList_push]
    constructor
    · simp
    · intro ch hh
      rcases mem_append.mp hh with hm | hm
      · exact ne_nil_of_length_pos (hc ch hm ▸ hn)
      · rw [mem_singleton.mp hm]
        exact ne_nil_of_length_pos (by simpa using hC)
    · simp [length_flatten_of_full hc, -length_flatten]
      omega
  | cons x xs ih =>
    intro cu cl hC hs hc
    simp only [List.toChunks.go]
    split
    case isTrue hf =>
      have hf : cu.size = n := by simpa using hf
      have hc' : ∀ ch ∈ (cl.push cu.toList).toList, ch.length = n := by
        intro ch hh
        rcases mem_append.mp (Array.toList_push ▸ hh) with hm | hm
        · exact hc ch hm
        · rw [mem_singleton.mp hm]
          exact hf
      have hu := ih ((Array.mkEmpty n).push x) (cl.push cu.toList) (by simp)
        (by simpa using Nat.succ_le_of_lt hn) hc'
      simpa using hu
    case isFalse hf =>
      have hf : cu.size ≠ n := by simpa using hf
      have hu := ih (cu.push x) cl (by simp) (by simp; omega) hc
      simpa using hu

theorem cut_toChunks (hn : 0 < n) (hl : l ≠ []) : Cut n l (l.toChunks n) := by
  cases l with
  | nil => exact absurd rfl hl
  | cons x xs =>
    cases n with
    | zero => exact absurd hn (Nat.lt_irrefl 0)
    | succ n => simpa [List.toChunks] using cut_go hn xs #[x] #[] (by simp) (by simp) (by simp)

theorem Cut.length_le {k} (h : Cut ((l.length + k - 1) / k) l cn) (hk : 0 < k) : cn.length ≤ k := by
  have hf := h.full
  have hc : l.length ≤ k * ((l.length + k - 1) / k) := by
    have := Nat.div_add_mod (l.length + k - 1) k
    have := Nat.mod_lt (l.length + k - 1) hk
    omega
  have hl : (cn.length - 1) * ((l.length + k - 1) / k) < k * ((l.length + k - 1) / k) := by
    omega
  have := Nat.lt_of_mul_lt_mul_right hl
  omega

end Tinyflows.Lib
