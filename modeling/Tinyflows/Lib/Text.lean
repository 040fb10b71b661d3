import Mathlib.Data.String.Basic

/-!
# Text

The functions on text that look at single characters.
-/

namespace Tinyflows.Lib.Text
open List

def isWhitespace (c : Char) : Bool :=
  let n := c.toNat
  (0x9 ≤ n && n ≤ 0xd) || n = 0x20 || n = 0x85 || n = 0xa0 || n = 0x1680 ||
    (0x2000 ≤ n && n ≤ 0x200a) || n = 0x2028 || n = 0x2029 || n = 0x202f || n = 0x205f || n = 0x3000

def trimMatches (p : Char → Bool) (s : String) : String :=
  .ofList ((s.toList.dropWhile p).reverse.dropWhile p).reverse

def trim (s : String) : String :=
  trimMatches isWhitespace s

def asciiLower (s : String) : String :=
  .ofList (s.toList.map Char.toLower)

def asciiUpper (s : String) : String :=
  .ofList (s.toList.map Char.toUpper)

def eqIgnoreAsciiCase (s t : String) : Bool :=
  asciiLower s = asciiLower t

def endsWith (s suffix : String) : Bool :=
  suffix.toList.isSuffixOf s.toList

def stripPrefix (start s : String) : Option String :=
  if start.toList.isPrefixOf s.toList then some (.ofList (s.toList.drop start.toList.length)) else none

theorem endsWith_iff {s suffix} : endsWith s suffix = true ↔ ∃ fr, s = fr ++ suffix := by
  simp only [endsWith, isSuffixOf_iff_suffix]
  constructor
  · rintro ⟨fr, h⟩
    refine ⟨.ofList fr, ?_⟩
    rw [← String.toList_inj, String.toList_append, String.toList_ofList, h]
  · rintro ⟨fr, rfl⟩
    exact ⟨fr.toList, String.toList_append.symm⟩

theorem stripPrefix_eq_some {st s rest} : stripPrefix st s = some rest ↔ s = st ++ rest := by
  simp only [stripPrefix, isPrefixOf_iff_prefix, ← String.toList_inj, String.toList_append]
  split_ifs with h
  · obtain ⟨tail, ht⟩ := h
    rw [← ht, drop_left, Option.some.injEq, append_cancel_left_eq, ← String.toList_inj,
      String.toList_ofList]
  · simp only [false_iff]
    intro he
    exact h ⟨rest.toList, he.symm⟩

theorem mem_filterMap_stripPrefix {st rest} {ids : List String} :
    rest ∈ ids.filterMap (stripPrefix st) ↔ st ++ rest ∈ ids := by
  simp only [mem_filterMap, stripPrefix_eq_some, exists_eq_right]

end Tinyflows.Lib.Text
