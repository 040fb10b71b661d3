import Tinyflows.Lib.Interleaving

/-!
# Pre- and postconditions of programs that may fail

A program runs among others. The precondition holds of the resource as the program last saw it, and so
does the postcondition.
-/

namespace Tinyflows.Lib

variable {S C : Type} {R : C → Type} {ε α β : Type} {T : Terms S C R}

/-- Started where `A` holds, the program keeps its guarantee, and ends with a result that satisfies
`Q`. -/
def Leads (T : Terms S C R) (A : S → Prop) (p : Program C R α) (Q : S → α → Prop) : Prop :=
  ∀ s, T.inv s → A s → p.Meets T Q s

namespace Leads

variable {A A' : S → Prop} {p : Program C R α} {Q Q' : S → α → Prop} {f : α → Program C R β}
  {Q'' : S → β → Prop}

theorem pure {a} (h : ∀ s, T.inv s → A s → Q s a) : Leads T A (Pure.pure a) Q :=
  fun s hs hA => h s hs hA

theorem bind (hp : Leads T A p Q) (hf : ∀ a, Leads T (Q · a) (f a) Q'') : Leads T A (p >>= f) Q'' :=
  fun s hs hA => Program.Meets.bind hs (hp s hs hA) fun a t ht hQ => hf a t ht hQ

theorem weaken (h : Leads T A p Q) (hA : ∀ s, T.inv s → A' s → A s)
    (hQ : ∀ s a, T.inv s → Q s a → Q' s a) : Leads T A' p Q' :=
  fun s hs hA' => (h s hs (hA s hs hA')).mono hs fun a t ht => hQ t a ht

end Leads

/-- Started where `A` holds, the program keeps its guarantee, and ends with a result that satisfies `Q`
or fails where `E` holds. -/
def Ensures (T : Terms S C R) (A : S → Prop) (x : ExceptT ε (Program C R) α) (Q : S → α → Prop)
    (E : S → Prop) : Prop :=
  ∀ s, T.inv s → A s → Program.Meets T (fun t r => match r with
    | .ok a => Q t a
    | .error _ => E t) x.run s

namespace Ensures

variable {A A' E E' : S → Prop} {x : ExceptT ε (Program C R) α} {Q Q' : S → α → Prop}
  {f : α → ExceptT ε (Program C R) β} {Q'' : S → β → Prop}

theorem pure {a} (h : ∀ s, T.inv s → A s → Q s a) :
    Ensures T A (Pure.pure a : ExceptT ε (Program C R) α) Q E :=
  fun s hs hA => h s hs hA

theorem throw {e} (h : ∀ s, T.inv s → A s → E s) :
    Ensures T A (throw e : ExceptT ε (Program C R) α) Q E :=
  fun s hs hA => h s hs hA

theorem lift {p : Program C R α} (h : ∀ s, T.inv s → A s → p.Meets T Q s) :
    Ensures T A (monadLift p : ExceptT ε (Program C R) α) Q E :=
  fun s hs hA => Program.Meets.bind hs (h s hs hA) fun _ _ _ hQ => hQ

theorem bind (hx : Ensures T A x Q E) (hf : ∀ a, Ensures T (Q · a) (f a) Q'' E) :
    Ensures T A (x >>= f) Q'' E := by
  intro s hs hA
  rw [ExceptT.run_bind]
  refine Program.Meets.bind hs (hx s hs hA) ?_
  rintro (e | a) t ht hp
  · exact hp
  · exact hf a t ht hp

theorem tryCatch {h Q} (hx : Ensures T A x Q E)
    (hh : ∀ e, Ensures T E (h e) Q E') : Ensures T A (tryCatch x h) Q E' := by
  intro s hs hA
  refine Program.Meets.bind hs (hx s hs hA) ?_
  rintro (e | a) t ht hp
  · exact hh e t ht hp
  · exact hp

theorem weaken (h : Ensures T A x Q E) (hA : ∀ s, T.inv s → A' s → A s)
    (hQ : ∀ s a, T.inv s → Q s a → Q' s a) (hE : ∀ s, E s → E' s) : Ensures T A' x Q' E' := by
  intro s hs hA'
  refine (h s hs (hA s hs hA')).mono hs ?_
  rintro (e | a) t ht hp
  · exact hE t hp
  · exact hQ t a ht hp

theorem exists_ {ι : Type} {A : ι → S → Prop} (h : ∀ i, Ensures T (A i) x Q E) :
    Ensures T (fun s => ∃ i, A i s) x Q E := by
  rintro s hs ⟨i, hi⟩
  exact h i s hs hi

theorem exists_and {ι : Type} {P : ι → Prop} {A : ι → S → Prop}
    (h : ∀ i, P i → Ensures T (A i) x Q E) : Ensures T (fun s => ∃ i, P i ∧ A i s) x Q E := by
  rintro s hs ⟨i, hP, hi⟩
  exact h i hP s hs hi

theorem pre (h : Ensures T A x Q E) (hA : ∀ s, T.inv s → A' s → A s) : Ensures T A' x Q E :=
  h.weaken hA (fun _ _ _ hQ => hQ) fun _ hE => hE

theorem fact {P : Prop} (hP : ∀ s, T.inv s → A s → P) (h : P → Ensures T A x Q E) : Ensures T A x Q E :=
  fun s hs hA => h (hP s hs hA) s hs hA

theorem forM {f : α → ExceptT ε (Program C R) Unit} (h : ∀ a, Ensures T A (f a) (fun s _ => A s) E)
    (l : List α) : Ensures T A (l.forM f) (fun s _ => A s) E := by
  induction l with
  | nil => exact .pure fun _ _ hA => hA
  | cons a rest ih => exact (h a).bind fun _ => ih

end Ensures

end Tinyflows.Lib
