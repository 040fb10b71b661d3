import Mathlib.Algebra.GroupWithZero.Nat
import Mathlib.Data.List.Basic

/-!
# Document keys

A key joins its parts with `/` once the characters that would be misread are escaped. A key that is too
long for a document id gives way to its digest, which is marked by a leading `~`.
-/

namespace Tinyflows.Keys
open List

def byteLength (text : List Char) : Nat := (text.map Char.utf8Size).sum

def escapeChar (leading : Bool) (c : Char) : List Char :=
  if c = '%' then ['%', '2', '5']
  else if c = '/' then ['%', '2', 'F']
  else if c = '\x00' then ['%', '0', '0']
  else if c = '~' ∧ leading then ['%', '7', 'E']
  else [c]

def escapeInto (first : Bool) : List Char → List Char
  | [] => []
  | c :: rest => escapeChar first c ++ rest.flatMap (escapeChar false)

def unescapeChar (a b : Char) : Option Char :=
  if a = '2' ∧ b = '5' then some '%'
  else if a = '2' ∧ b = 'F' then some '/'
  else if a = '0' ∧ b = '0' then some '\x00'
  else if a = '7' ∧ b = 'E' then some '~'
  else none

def unescape : List Char → Option (List Char)
  | [] => some []
  | c :: rest =>
    if c = '%' then
      match rest with
      | a :: b :: tail => (unescapeChar a b).bind fun d => (unescape tail).map (d :: ·)
      | _ => none
    else (unescape rest).map (c :: ·)

def escaped : List (List Char) → List Char
  | [] => []
  | part :: parts => escapeInto true part ++ parts.flatMap fun part => '/' :: escapeInto false part

/-- The rules of a document id: one to `limit` bytes, and no NUL. -/
structure Key (limit : Nat) where
  text : List Char
  nonempty : text ≠ []
  bounded : byteLength text ≤ limit
  clean : '\x00' ∉ text

/-- The digest of a long text, in base32, which makes a key again: that of SHA-256 has 52 characters. -/
structure Digest (limit : Nat) where
  text : List Char → List Char
  short : ∀ s, byteLength ('~' :: text s) ≤ limit
  clean : ∀ s, '\x00' ∉ text s

namespace Key

variable {limit : Nat} (invalid : List Char → String) (digest : List Char → List Char)

def new (raw : List Char) : Except String (Key limit) :=
  if h : raw ≠ [] ∧ byteLength raw ≤ limit ∧ '\x00' ∉ raw then .ok ⟨raw, h.1, h.2.1, h.2.2⟩
  else .error (invalid raw)

/-- `digest` stands for the base32 form of the SHA-256 digest. -/
def of (parts : List (List Char)) : Except String (Key limit) :=
  if parts = [] then .error "a key needs at least one part"
  else new invalid
    (if limit < byteLength (escaped parts) then '~' :: digest (escaped parts) else escaped parts)

def isHashed (k : Key limit) : Bool := k.text.head? = some '~'

def split (k : Key limit) : Option (List (List Char)) :=
  if k.isHashed then none else (k.text.splitOn '/').mapM unescape

end Key

/-! ## Reading a key back -/

variable {b : Bool} {c x : Char} {s t : List Char} {ps : List (List Char)}

theorem unescape_escapeChar : unescape (escapeChar b c ++ t) = (unescape t).map (c :: ·) := by
  unfold escapeChar
  split_ifs with hp hs hn ht
  · rw [hp]; rfl
  · rw [hs]; rfl
  · rw [hn]; rfl
  · rw [ht.1]; rfl
  · rw [singleton_append, unescape.eq_def]
    exact if_neg hp

theorem unescape_escapeInto : unescape (escapeInto b s) = some s := by
  have hr : ∀ s : List Char, unescape (s.flatMap (escapeChar false)) = some s := by
    intro s
    induction s with
    | nil => rfl
    | cons c s ih => rw [flatMap_cons, unescape_escapeChar, ih]; rfl
  cases s with
  | nil => rfl
  | cons c s => rw [escapeInto, unescape_escapeChar, hr]; rfl

theorem mem_escapeChar (h : x ∈ escapeChar b c) : x ≠ '/' ∧ x ≠ '\x00' := by
  unfold escapeChar at h
  split_ifs at h <;> simp at h <;> rcases h with rfl | rfl | rfl <;> simp_all

theorem mem_escapeInto (h : x ∈ escapeInto b s) : x ≠ '/' ∧ x ≠ '\x00' := by
  cases s with
  | nil => cases h
  | cons c s =>
    rcases mem_append.mp h with h | h
    · exact mem_escapeChar h
    · obtain ⟨d, -, h⟩ := mem_flatMap.mp h
      exact mem_escapeChar h

theorem nul_notMem_escaped : '\x00' ∉ escaped ps := by
  intro h
  cases ps with
  | nil => cases h
  | cons p ps =>
    rcases mem_append.mp h with h | h
    · exact (mem_escapeInto h).2 rfl
    · obtain ⟨q, -, h⟩ := mem_flatMap.mp h
      exact (mem_escapeInto ((mem_cons.mp h).resolve_left (by decide))).2 rfl

theorem split_escaped (hp : ps ≠ []) : ((escaped ps).splitOn '/').mapM unescape = some ps := by
  have hs : ∀ ps b p, ((escapeInto b p ++ ps.flatMap fun q => '/' :: escapeInto false q).splitOn '/').mapM
      unescape = some (p :: ps) := by
    intro ps
    induction ps with
    | nil =>
      intro b p
      rw [flatMap_nil, append_nil, splitOn_eq_singleton fun h => (mem_escapeInto h).1 rfl]
      simp [unescape_escapeInto]
    | cons q ps ih =>
      intro b p
      rw [flatMap_cons, cons_append, splitOn_append_cons_self_of_not_mem fun h => (mem_escapeInto h).1 rfl,
        mapM_cons, unescape_escapeInto, ih]
      rfl
  cases ps with
  | nil => exact absurd rfl hp
  | cons p ps => exact hs ps true p

theorem head?_escaped : (escaped ps).head? ≠ some '~' := by
  cases ps with
  | nil => simp [escaped]
  | cons p ps =>
    cases p with
    | nil => cases ps <;> simp [escaped, escapeInto]
    | cons c s =>
      simp only [escaped, escapeInto, escapeChar]
      split_ifs <;> simp_all

section
variable {limit : Nat} {invalid : List Char → String} {digest : List Char → List Char} {k : Key limit}

theorem of_eq_ok (h : Key.of invalid digest ps = .ok k) : ps ≠ [] ∧
    k.text = if limit < byteLength (escaped ps) then '~' :: digest (escaped ps) else escaped ps := by
  unfold Key.of at h
  split_ifs at h with hp hl <;> unfold Key.new at h <;> split_ifs at h <;> cases h
  · exact ⟨hp, (if_pos hl).symm⟩
  · exact ⟨hp, (if_neg hl).symm⟩

theorem split_of (h : Key.of invalid digest ps = .ok k) :
    k.split = if byteLength (escaped ps) ≤ limit then some ps else none := by
  obtain ⟨hp, ht⟩ := of_eq_ok h
  by_cases hl : byteLength (escaped ps) ≤ limit
  · rw [if_neg (Nat.not_lt.mpr hl)] at ht
    rw [if_pos hl, Key.split, Key.isHashed, ht, if_neg (by simpa using head?_escaped), split_escaped hp]
  · rw [if_pos (Nat.lt_of_not_le hl)] at ht
    rw [if_neg hl, Key.split, Key.isHashed, ht]
    rfl

theorem escaped_ne_nil (hp : ps ≠ []) (he : ps ≠ [[]]) : escaped ps ≠ [] := by
  intro h
  have hs := split_escaped hp
  rw [h] at hs
  exact he (Option.some.inj hs).symm

theorem of_fits (hp : ps ≠ []) (he : ps ≠ [[]]) (hl : byteLength (escaped ps) ≤ limit) :
    Key.of invalid digest ps = .ok ⟨escaped ps, escaped_ne_nil hp he, hl, nul_notMem_escaped⟩ := by
  rw [Key.of, if_neg hp, if_neg (Nat.not_lt.mpr hl)]
  exact dif_pos ⟨escaped_ne_nil hp he, hl, nul_notMem_escaped⟩

theorem of_ok (invalid : List Char → String) (digest : Digest limit) (hp : ps ≠ []) (he : ps ≠ [[]]) :
    ∃ k : Key limit, Key.of invalid digest.text ps = .ok k := by
  by_cases hl : limit < byteLength (escaped ps)
  · have hd : '\x00' ∉ '~' :: digest.text (escaped ps) := by simp [digest.clean]
    refine ⟨⟨_, cons_ne_nil _ _, digest.short _, hd⟩, ?_⟩
    rw [Key.of, if_neg hp, if_pos hl]
    exact dif_pos ⟨cons_ne_nil _ _, digest.short _, hd⟩
  · exact ⟨_, of_fits hp he (Nat.le_of_not_lt hl)⟩

theorem of_text_eq {ps'} {k' : Key limit} (hk : Key.of invalid digest ps = .ok k)
    (hk' : Key.of invalid digest ps' = .ok k') (ht : k'.text = k.text) :
    ps' = ps ∨ limit < byteLength (escaped ps) ∧ limit < byteLength (escaped ps') ∧
      digest (escaped ps') = digest (escaped ps) := by
  have hs : k'.split = k.split := by rw [Key.split, Key.isHashed, ht]; rfl
  rw [split_of hk, split_of hk'] at hs
  split_ifs at hs with hl' hl
  · exact .inl (Option.some.inj hs)
  · have h := (of_eq_ok hk').2.symm.trans (ht.trans (of_eq_ok hk).2)
    rw [if_pos (Nat.lt_of_not_le hl'), if_pos (Nat.lt_of_not_le ‹_›)] at h
    exact .inr ⟨Nat.lt_of_not_le ‹_›, Nat.lt_of_not_le hl', (cons.inj h).2⟩

/-- A key that fits is read back as its parts. Two lists of parts share a key only where both are too long
and their digests agree. -/
theorem of_reversible (parts : List (List Char)) :
    (byteLength (escaped parts) ≤ limit → parts ≠ [] → parts ≠ [[]] →
      ∃ k : Key limit, Key.of invalid digest parts = .ok k) ∧
    ∀ k : Key limit, Key.of invalid digest parts = .ok k →
      k.split = (if byteLength (escaped parts) ≤ limit then some parts else none) ∧
      ∀ parts' (k' : Key limit), Key.of invalid digest parts' = .ok k' → k'.text = k.text →
        parts' = parts ∨ limit < byteLength (escaped parts) ∧ limit < byteLength (escaped parts') ∧
          digest (escaped parts') = digest (escaped parts) := by
  exact ⟨fun hl hp he => ⟨_, of_fits hp he hl⟩,
    fun k hk => ⟨split_of hk, fun _ _ hk' ht => of_text_eq hk hk' ht⟩⟩

/-- The key of parts that fit is a document id and theirs alone: it is read back as them, it is not a hashed
one, and no other parts get it. Only the list of one empty part has none. -/
theorem fitting_key_own (parts : List (List Char)) (hp : parts ≠ [])
    (hl : byteLength (escaped parts) ≤ limit) :
    ((∃ k : Key limit, Key.of invalid digest parts = .ok k) ↔ parts ≠ [[]]) ∧
    ∀ k : Key limit, Key.of invalid digest parts = .ok k →
      k.split = some parts ∧ k.isHashed = false ∧
      (k.text ≠ [] ∧ byteLength k.text ≤ limit ∧ '\x00' ∉ k.text) ∧
      ∀ parts' (k' : Key limit), Key.of invalid digest parts' = .ok k' → k'.text = k.text → parts' = parts := by
  refine ⟨⟨?_, fun he => ⟨_, of_fits hp he hl⟩⟩, fun k hk => ⟨?_, ?_, ⟨k.nonempty, k.bounded, k.clean⟩, ?_⟩⟩
  · rintro ⟨k, hk⟩ rfl
    exact k.nonempty ((of_eq_ok hk).2.trans (if_neg (Nat.not_lt.mpr hl)))
  · rw [split_of hk, if_pos hl]
  · rw [Key.isHashed, (of_eq_ok hk).2, if_neg (Nat.not_lt.mpr hl)]
    exact decide_eq_false head?_escaped
  · intro parts' k' hk' ht
    exact (of_text_eq hk hk' ht).resolve_right fun h => Nat.not_lt.mpr hl h.1

theorem slash_key_own : ∃ k : Key 8, Key.of (fun _ => "") id [['/'], []] = .ok k ∧
    k.split = some [['/'], []] := by
  have h := @fitting_key_own 8 (fun _ => "") id [['/'], []] (by decide) (by decide)
  obtain ⟨k, hk⟩ := h.1.mpr (by decide)
  exact ⟨k, hk, (h.2 k hk).1⟩
end

end Tinyflows.Keys
