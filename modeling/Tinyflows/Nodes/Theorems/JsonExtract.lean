import Tinyflows.Nodes.JsonExtract

/-!
# A written value is found

The scan passes over whatever stands between the outermost brackets of a value and comes back to the depth
it started from.
-/

namespace Tinyflows.Nodes.JsonExtract
open Lib List

/-! ## Single characters -/

section Steps

variable {k : Bracket} {depth ln : Nat} {re : List Char} {c : Char}

theorem opening_ne_quote (k : Bracket) : k.opening ≠ '"' := by
  cases k <;> decide

theorem closing_ne (k : Bracket) : k.closing ≠ '"' ∧ k.closing ≠ k.opening := by
  cases k <;> decide

theorem scan_opening (h : depth + 1 < 2 ^ 32) : scan k { depth } ln (k.opening :: re) =
    scan k { depth := depth + 1 } (ln + 1) re := by
  rw [scan]
  simp only [Bool.false_eq_true, if_false, if_neg (opening_ne_quote k), if_true, if_pos h]

theorem scan_opening_overflow (h : 2 ^ 32 ≤ depth + 1) :
    scan k { depth } ln (k.opening :: re) = .overflow := by
  rw [scan]
  simp only [Bool.false_eq_true, if_false, if_neg (opening_ne_quote k), if_true, if_neg (not_lt.mpr h)]

theorem scan_closing : scan k { depth := depth + 2 } ln (k.closing :: re) =
    scan k { depth := depth + 1 } (ln + 1) re := by
  simp [scan, closing_ne]

theorem scan_closing_last : scan k { depth := 1 } ln (k.closing :: re) = .balanced (ln + 1) := by
  simp [scan, closing_ne]

theorem scan_other (hq : c ≠ '"') (ho : c ≠ k.opening) (hc : c ≠ k.closing) :
    scan k { depth } ln (c :: re) = scan k { depth } (ln + 1) re := by
  simp [scan, hq, ho, hc]

theorem scan_end_quote : scan k { depth, inString := true } ln ('"' :: re) =
    scan k { depth } (ln + 1) re := by
  simp [scan]

theorem scan_escape (x) : scan k { depth, inString := true } ln ('\\' :: x :: re) =
    scan k { depth, inString := true } (ln + 2) re := by
  simp [scan]

theorem scan_in_string (hq : c ≠ '"') (he : c ≠ '\\') :
    scan k { depth, inString := true } ln (c :: re) =
      scan k { depth, inString := true } (ln + 1) re := by
  simp [scan, hq, he]

end Steps

section Strings

variable {k : Bracket} (depth ln : Nat) (re : List Char)

theorem hexDigit_ordinary : ∀ n : Fin 16, hexDigit n ≠ '"' ∧ hexDigit n ≠ '\\' := by
  decide

/-- A character is written as it is, or as a backslash, a character and others that mean nothing to the
scan. -/
theorem escapeChar_cases (c) :
    escapeChar c = [c] ∧ c ≠ '"' ∧ c ≠ '\\' ∨
      ∃ x tail, escapeChar c = '\\' :: x :: tail ∧ ∀ y ∈ tail, y ≠ '"' ∧ y ≠ '\\' := by
  unfold escapeChar
  split_ifs with hq he h8 h9 h10 h12 h13 hc
  iterate 7 · exact .inr ⟨_, [], rfl, by simp⟩
  · have hh := hexDigit_ordinary ⟨c.toNat / 16, by omega⟩
    have hl := hexDigit_ordinary ⟨c.toNat % 16, by omega⟩
    exact .inr ⟨_, _, rfl, by simp [hh, hl]⟩
  · exact .inl ⟨rfl, hq, he⟩

theorem scan_ordinary {te} (h : ∀ y ∈ te, y ≠ '"' ∧ y ≠ '\\') :
    scan k { depth, inString := true } ln (te ++ re) =
      scan k { depth, inString := true } (ln + te.length) re := by
  induction te generalizing ln with
  | nil => rfl
  | cons y te ih =>
    obtain ⟨⟨hq, he⟩, ht⟩ := forall_mem_cons.mp h
    rw [cons_append, scan_in_string hq he, ih _ ht, length_cons]
    congr 1
    omega

theorem scan_escaped (s : List Char) :
    scan k { depth, inString := true } ln (s.flatMap escapeChar ++ re) =
      scan k { depth, inString := true } (ln + (s.flatMap escapeChar).length) re := by
  induction s generalizing ln with
  | nil => rfl
  | cons c s ih =>
    rw [flatMap_cons, append_assoc, length_append, ← Nat.add_assoc]
    rcases escapeChar_cases c with ⟨hc, hq, he⟩ | ⟨x, tail, hc, ht⟩
    · rw [hc, singleton_append, scan_in_string hq he, ih]
      rfl
    · rw [hc, cons_append, cons_append, scan_escape, scan_ordinary _ _ _ ht, ih]
      congr 1
      simp
      omega

end Strings

/-! ## Passing over a text -/

def Passes (k : Bracket) (room : Nat) (text : List Char) : Prop :=
  ∀ depth length rest, depth + 1 + room < 2 ^ 32 →
    scan k { depth := depth + 1 } length (text ++ rest) =
      scan k { depth := depth + 1 } (length + text.length) rest

/-- A character that the scan does not look at. -/
def Plain (c : Char) : Prop :=
  c ∉ ['"', '\x7b', '\x7d', '[', ']']

section Texts

variable {k : Bracket} {ro more : Nat} {a b : List Char} {c : Char}

theorem Passes.nil : Passes k ro [] :=
  fun _ _ _ _ => rfl

theorem Passes.append (ha : Passes k ro a) (hb : Passes k ro b) : Passes k ro (a ++ b) := by
  intro depth ln re hr
  rw [List.append_assoc, ha _ _ _ hr, hb _ _ _ hr, List.length_append, Nat.add_assoc]

theorem Passes.mono (h : Passes k ro a) (hl : ro ≤ more) : Passes k more a :=
  fun depth ln re hr => h depth ln re (by omega)

theorem Passes.other (hq : c ≠ '"') (ho : c ≠ k.opening) (hc : c ≠ k.closing) : Passes k ro [c] :=
  fun _ _ _ _ => scan_other hq ho hc

theorem Passes.plain (h : ∀ c ∈ a, Plain c) : Passes k ro a := by
  induction a with
  | nil => exact .nil
  | cons c re ih =>
    obtain ⟨hc, hr⟩ := forall_mem_cons.mp h
    simp only [Plain, mem_cons, not_mem_nil, or_false, not_or] at hc
    obtain ⟨hq, hb, hb', hs, hs'⟩ := hc
    refine Passes.append (a := [c]) (.other hq ?_ ?_) (ih hr)
    · cases k <;> assumption
    · cases k <;> assumption

theorem Passes.quoted (s : String) : Passes k ro (quoted s) := by
  intro depth ln re _
  rw [JsonExtract.quoted, cons_append, cons_append, scan_quote, append_assoc, scan_escaped,
    singleton_append, scan_end_quote]
  congr 1
  simp
  omega

/-- Brackets of the kind that is counted take one level, and others take none. -/
theorem Passes.bracketed (k') (h : Passes k ro a) :
    Passes k (ro + if k = k' then 1 else 0) (k'.opening :: a ++ [k'.closing]) := by
  by_cases hk : k = k'
  · subst hk
    intro depth ln re hr
    rw [if_pos rfl] at hr
    rw [cons_append, cons_append, scan_opening (by omega), append_assoc,
      h _ _ _ (by omega), singleton_append, scan_closing]
    congr 1
    simp
    omega
  · have ho : Passes k ro [k'.opening] ∧ Passes k ro [k'.closing] := by
      cases k <;> cases k' <;>
        first
        | exact absurd rfl hk
        | exact ⟨.other (by decide) (by decide) (by decide), .other (by decide) (by decide) (by decide)⟩
    rw [if_neg hk]
    exact (ho.1.append h).append ho.2

end Texts

/-! ## Written values -/

theorem plain_comma : ∀ c ∈ [','], Plain c := by
  simp [Plain]

section Written

variable {nu : Number → List Char} {k : Bracket}

mutual

theorem passes_write (hn : ∀ n, ∀ c ∈ nu n, Plain c) :
    (v : Json) → Passes k (nesting k v) (write nu v)
  | .null => Passes.plain (show ∀ c ∈ "null".toList, Plain c by simp [Plain])
  | .bool false => Passes.plain (show ∀ c ∈ "false".toList, Plain c by simp [Plain])
  | .bool true => Passes.plain (show ∀ c ∈ "true".toList, Plain c by simp [Plain])
  | .num n => Passes.plain (hn n)
  | .str s => .quoted s
  | .arr items => (passes_items hn (by simp) items).bracketed .square
  | .obj fs => (passes_fields hn (by simp) fs).bracketed .brace

theorem passes_items (hn : ∀ n, ∀ c ∈ nu n, Plain c) {se} (hs : ∀ c ∈ se, Plain c) :
    (items : List Json) → Passes k (nestingOfItems k items) (writeItems nu se items)
  | [] => .nil
  | v :: re => by
    have hv := (passes_write hn v).mono (Nat.le_max_left (nesting k v) (nestingOfItems k re))
    have hr := (passes_items hn plain_comma re).mono
      (Nat.le_max_right (nesting k v) (nestingOfItems k re))
    exact ((Passes.plain hs).append hv).append hr

theorem passes_fields (hn : ∀ n, ∀ c ∈ nu n, Plain c) {se} (hs : ∀ c ∈ se, Plain c) :
    (fs : List (String × Json)) → Passes k (nestingOfFields k fs) (writeFields nu se fs)
  | [] => .nil
  | (key, v) :: re => by
    have hv := (passes_write hn v).mono (Nat.le_max_left (nesting k v) (nestingOfFields k re))
    have hr := (passes_fields hn plain_comma re).mono
      (Nat.le_max_right (nesting k v) (nestingOfFields k re))
    have hc : ∀ c ∈ [':'], Plain c := by simp [Plain]
    have hk := ((Passes.plain hs).append (Passes.quoted key)).append ((Passes.plain hc).append hv)
    simpa [writeFields, nestingOfFields] using hk.append hr

end

theorem scan_write (hn : ∀ n, ∀ c ∈ nu n, Plain c) {v} (hv : outermost v = some k)
    (hd : nesting k v < 2 ^ 32) (re) :
    ∃ ir, write nu v = k.opening :: ir ++ [k.closing] ∧
      scan k {} 0 (write nu v ++ re) = .balanced (write nu v).length := by
  have hi : ∃ ir ro, write nu v = k.opening :: ir ++ [k.closing] ∧ Passes k ro ir ∧
      nesting k v = ro + 1 := by
    cases v with
    | arr it =>
      cases hv
      exact ⟨_, _, rfl, passes_items hn (by simp) it, rfl⟩
    | obj fs =>
      cases hv
      exact ⟨_, _, rfl, passes_fields hn (by simp) fs, rfl⟩
    | _ => cases hv
  obtain ⟨ir, ro, hw, hp, hr⟩ := hi
  refine ⟨ir, hw, ?_⟩
  rw [hw, cons_append, cons_append, scan_opening (by decide), append_assoc,
    hp 0 _ _ (by omega), singleton_append, scan_closing_last]
  congr 1
  simp
  omega

end Written

/-! ## The text around a value -/

section Around

variable {parse : List Char → Option Json} {be after te : List Char}

theorem extractFrom_skip (h : ∀ c ∈ be, bracketOf c = none) :
    extractFrom parse (be ++ te) = extractFrom parse te := by
  induction be with
  | nil => rfl
  | cons c be ih =>
    obtain ⟨hc, hb⟩ := forall_mem_cons.mp h
    rw [cons_append, extractFrom, hc]
    exact ih hb

variable {c d : Char}

theorem dropWhile_before (hf : te.head? = some c) (hc : isWhitespace c = false) :
    (be ++ te).dropWhile isWhitespace = be.dropWhile isWhitespace ++ te := by
  obtain ⟨re, rfl⟩ := head?_eq_some_iff.mp hf
  induction be with
  | nil => simp [hc]
  | cons b be ih => by_cases hb : isWhitespace b <;> simp [hb, ih]

theorem trim_around (hf : te.head? = some c) (hc : isWhitespace c = false)
    (hl : te.reverse.head? = some d) (hd : isWhitespace d = false) :
    trim (be ++ te ++ after) =
      be.dropWhile isWhitespace ++ te ++ (after.reverse.dropWhile isWhitespace).reverse := by
  rw [trim, append_assoc, dropWhile_before (by simp [hf]) hc, reverse_append,
    reverse_append, append_assoc, dropWhile_before (by simp [head?_append, hl]) hd]
  simp

theorem trim_written {nu k v} (hv : outermost v = some k) (be after) :
    trim (be ++ write nu v ++ after) = be.dropWhile isWhitespace ++ write nu v ++
      (after.reverse.dropWhile isWhitespace).reverse := by
  cases v with
  | arr it => exact trim_around (c := '[') (d := ']') rfl (by decide) (by simp [write]) (by decide)
  | obj fs => exact trim_around (c := '\x7b') (d := '\x7d') rfl (by decide) (by simp [write]) (by decide)
  | _ => cases hv

end Around

/-- A written object or array is found in any text in which no bracket stands before it, as long as the
brackets of its own kind nest less than `2 ^ 32` deep. -/
theorem extract_written (number : Number → List Char) (hnumber : ∀ n, ∀ c ∈ number n, Plain c)
    (parse : List Char → Option Json) (v : Json) (hparse : parse (write number v) = some v)
    (k : Bracket) (hv : outermost v = some k) (hdepth : nesting k v < 2 ^ 32)
    (before after : List Char) (hbefore : ∀ c ∈ before, c ≠ '\x7b' ∧ c ≠ '[') :
    extractBalancedJson parse (before ++ write number v ++ after) = some v := by
  obtain ⟨inner, hwrite, hscan⟩ :=
    scan_write hnumber hv hdepth (after.reverse.dropWhile isWhitespace).reverse
  have hbracket : bracketOf k.opening = some k := by cases k <;> decide
  have hcontainer : isContainer v = true := by cases v <;> first | rfl | cases hv
  rw [extractBalancedJson, trim_written hv, append_assoc, extractFrom_skip fun c hc => ?_]
  · generalize (after.reverse.dropWhile isWhitespace).reverse = tail at hscan ⊢
    have htext : write number v ++ tail = k.opening :: (inner ++ [k.closing] ++ tail) := by rw [hwrite]; rfl
    rw [htext, extractFrom, hbracket, ← htext]
    simp only [hscan, take_left, hparse, hcontainer, if_true]
  · obtain ⟨hbrace, hsquare⟩ := hbefore c (dropWhile_subset _ hc)
    rw [bracketOf, if_neg hbrace, if_neg hsquare]

theorem extract_written_in_text :
    extractBalancedJson (fun _ => some (.obj [("a", .arr [.str "]\"\x7d"])]))
      ("so: ".toList ++ write (fun _ => ['0']) (.obj [("a", .arr [.str "]\"\x7d"])]) ++ " (done\x7d".toList) =
        some (.obj [("a", .arr [.str "]\"\x7d"])]) :=
  extract_written _ (fun _ => by simp [Plain]) _ _ rfl .brace rfl (by decide) _ _ (by simp)

/-! ## Too deep a value -/

def nestedArrays : Nat → Json
  | 0 => .arr []
  | n + 1 => .arr [nestedArrays n]

theorem write_nestedArrays (nu n) :
    ∃ re, write nu (nestedArrays n) = List.replicate (n + 1) '[' ++ re := by
  induction n with
  | zero => exact ⟨[']'], rfl⟩
  | succ n ih =>
    obtain ⟨re, hr⟩ := ih
    refine ⟨re ++ [']'], ?_⟩
    simp [nestedArrays, write, writeItems, hr, replicate_succ]

theorem scan_too_deep {depth ln n} (re) (h : 2 ^ 32 ≤ depth + n) (hn : 0 < n) :
    scan .square { depth } ln (List.replicate n '[' ++ re) = .overflow := by
  induction n generalizing depth ln with
  | zero => cases hn
  | succ n ih =>
    rw [replicate_succ, cons_append]
    by_cases hr : depth + 1 < 2 ^ 32
    · exact (scan_opening hr).trans (ih (by omega) (by omega))
    · exact scan_opening_overflow (not_lt.mp hr)

theorem extract_too_deep {n} (h : 2 ^ 32 ≤ n + 1) (nu parse) :
    extractBalancedJson parse (write nu (nestedArrays n)) = none := by
  have hq : outermost (nestedArrays n) = some .square := by cases n <;> rfl
  have ht : trim ([] ++ write nu (nestedArrays n) ++ []) = _ := trim_written hq [] []
  obtain ⟨re, hr⟩ := write_nestedArrays nu n
  have hs : scan .square {} 0 (List.replicate (n + 1) '[' ++ re) = .overflow :=
    scan_too_deep re (by omega) n.succ_pos
  simp only [nil_append, append_nil, dropWhile_nil, reverse_nil] at ht
  rw [extractBalancedJson, ht, hr]
  rw [replicate_succ, cons_append] at hs ⊢
  rw [extractFrom, show bracketOf '[' = some .square from rfl]
  simp only [hs]

theorem extract_nestedArrays_fails :
    outermost (nestedArrays (2 ^ 32)) = some .square ∧
      extractBalancedJson (fun _ => some (nestedArrays (2 ^ 32)))
        (write (fun _ => ['0']) (nestedArrays (2 ^ 32))) = none :=
  ⟨rfl, extract_too_deep (Nat.le_succ _) _ _⟩

end Tinyflows.Nodes.JsonExtract
