/-
# Cuts at separators

A text is cut at its last separator if it has one: what comes before it is arbitrary, and
what comes behind it has none (`splitLast_cases`). What stands before the first separator
has none either, so the text tells where it ends (`append_inj_of_cut`). What stands before a
mark that is no separator is told from the text as long as it does not come again, with the mark,
at the beginning of another (`append_inj_of_apart`). Numbers stand between separators as digits,
of which none is a separator, and are told from them (`natText_inj`).

A text is cut short at the first place where a pattern stands in it. A character that the pattern
has not keeps what is in front of it apart from what is behind: the cut comes in front if the
pattern stands there (`beforeFirst_append_of_infix`), and behind if it does not
(`beforeFirst_append_cons`).
-/
import Inversion.Text.Cut

namespace Inversion
namespace Text

variable {sep : Char}

theorem splitLast_of_not_mem : ∀ {cs : List Char}, sep ∉ cs → splitLast sep cs = none
  | [], _ => rfl
  | c :: cs, h => by
    have hc : c ≠ sep := fun he => h (he ▸ List.mem_cons_self)
    have hcs : sep ∉ cs := fun hin => h (List.mem_cons_of_mem c hin)
    rw [splitLast, splitLast_of_not_mem hcs]
    exact if_neg hc

theorem splitLast_append {behind : List Char} (h : sep ∉ behind) :
    ∀ before : List Char, splitLast sep (before ++ sep :: behind) = some (before, behind)
  | [] => by
    rw [List.nil_append, splitLast, splitLast_of_not_mem h]
    exact if_pos rfl
  | c :: before => by
    rw [List.cons_append, splitLast, splitLast_append h before]

/-- A text without a separator, or what stands before and behind its last one. -/
theorem splitLast_cases (sep : Char) : ∀ cs : List Char,
    sep ∉ cs ∨ ∃ before behind, cs = before ++ sep :: behind ∧ sep ∉ behind
  | [] => .inl List.not_mem_nil
  | c :: cs => by
    rcases splitLast_cases sep cs with hcs | ⟨before, behind, rfl, hbehind⟩
    · by_cases hc : c = sep
      · exact .inr ⟨[], cs, by rw [hc, List.nil_append], hcs⟩
      · exact .inl (List.not_mem_cons_of_ne_of_not_mem (Ne.symm hc) hcs)
    · exact .inr ⟨c :: before, behind, rfl, hbehind⟩

/-- Two texts agree before their first separators, and from there on. -/
theorem append_inj_of_cut {P : Char → Prop} {x y : List Char} (hx : ∀ c ∈ x.head?, P c)
    (hy : ∀ c ∈ y.head?, P c) : ∀ {a b : List Char}, (∀ c ∈ a, ¬P c) → (∀ c ∈ b, ¬P c) →
    a ++ x = b ++ y → a = b ∧ x = y
  | [], [], _, _, h => ⟨rfl, h⟩
  | [], d :: b, _, hb, h => by
    have hd : P d := hx d (by rw [show x = d :: (b ++ y) from h, List.head?_cons, Option.mem_some_iff])
    exact absurd hd (hb d List.mem_cons_self)
  | c :: a, [], ha, _, h => by
    have hc : P c := hy c (by rw [← show c :: (a ++ x) = y from h, List.head?_cons, Option.mem_some_iff])
    exact absurd hc (ha c List.mem_cons_self)
  | c :: a, d :: b, ha, hb, h => by
    obtain ⟨rfl, hrest⟩ := List.cons.inj h
    obtain ⟨rfl, rfl⟩ := append_inj_of_cut hx hy (fun e he => ha e (List.mem_cons_of_mem c he))
      (fun e he => hb e (List.mem_cons_of_mem c he)) hrest
    exact ⟨rfl, rfl⟩

/-- Two texts agree before their marks, and from there on, if neither begins with the other up to
its mark. -/
theorem append_inj_of_apart {a b m n : List Char} {c d : Char} (ha : ¬a ++ [c] <+: b)
    (hb : ¬b ++ [d] <+: a) (h : a ++ c :: m = b ++ d :: n) : a = b ∧ c = d ∧ m = n := by
  rcases List.append_eq_append_iff.mp h with ⟨between, rfl, hrest⟩ | ⟨between, rfl, hrest⟩
  · cases between with
    | nil => exact ⟨(List.append_nil a).symm, List.cons.inj hrest⟩
    | cons e between =>
      obtain rfl : c = e := (List.cons.inj hrest).1
      exact absurd ⟨between, by simp⟩ ha
  · cases between with
    | nil =>
      obtain ⟨hmark, htail⟩ := List.cons.inj hrest
      exact ⟨List.append_nil b, hmark.symm, htail.symm⟩
    | cons e between =>
      obtain rfl : d = e := (List.cons.inj hrest).1
      exact absurd ⟨between, by simp⟩ hb

/-! ### Patterns -/

section
variable {pattern x y : List Char} {c d : Char}

/-- A pattern that begins in front of a character which it has not ends in front of it, too. -/
theorem prefix_of_append_cons (hd : d ∉ pattern) (h : pattern <+: x ++ d :: y) : pattern <+: x := by
  rcases Nat.le_total pattern.length x.length with hle | hlt
  · exact List.prefix_of_prefix_length_le h (List.prefix_append x _) hle
  · obtain ⟨rest, hrest⟩ := List.prefix_of_prefix_length_le (List.prefix_append x _) h hlt
    cases rest with
    | nil => exact ⟨[], by rw [List.append_nil, ← hrest, List.append_nil]⟩
    | cons e rest =>
      have hmark : x ++ e :: rest <+: x ++ d :: y := hrest ▸ h
      obtain rfl : e = d := (List.cons_prefix_cons.mp ((List.prefix_append_right_inj x).mp hmark)).1
      exact absurd (hrest ▸ List.mem_append_right x List.mem_cons_self) hd

theorem beforeFirst_begins : ∀ cs : List Char, beforeFirst pattern cs <+: cs
  | [] => List.nil_prefix
  | c :: cs => by
    rw [beforeFirst]
    split
    · exact List.nil_prefix
    · exact List.cons_prefix_cons.mpr ⟨rfl, beforeFirst_begins cs⟩

/-- Without the pattern in front of a character that the pattern has not, the cut comes behind. -/
theorem beforeFirst_append_cons (hd : d ∉ pattern) : ∀ {x : List Char}, ¬pattern <:+: x →
    beforeFirst pattern (x ++ d :: y) = x ++ d :: beforeFirst pattern y
  | [], hx => by
    have hstart : ¬pattern.isPrefixOf (d :: y) := fun h =>
      hx (prefix_of_append_cons hd (List.isPrefixOf_iff_prefix.mp h)).isInfix
    rw [List.nil_append, beforeFirst, if_neg hstart, List.nil_append]
  | c :: x, hx => by
    have hstart : ¬pattern.isPrefixOf (c :: (x ++ d :: y)) := fun h =>
      hx (prefix_of_append_cons hd (x := c :: x) (List.isPrefixOf_iff_prefix.mp h)).isInfix
    rw [List.cons_append, beforeFirst, if_neg hstart,
      beforeFirst_append_cons hd fun h => hx (List.infix_cons h), List.cons_append]

theorem beforeFirst_singleton : ∀ {x : List Char}, c ∉ x → beforeFirst [c] (x ++ c :: y) = x
  | [], _ => by rw [List.nil_append, beforeFirst, if_pos (by simp)]
  | d :: x, h => by
    have hd : ¬[c].isPrefixOf (d :: (x ++ c :: y)) := by
      intro hstart
      obtain rfl : c = d := by simpa using hstart
      exact h List.mem_cons_self
    rw [List.cons_append, beforeFirst, if_neg hd,
      beforeFirst_singleton fun hin => h (List.mem_cons_of_mem d hin)]

/-- With the pattern in front, what comes behind does not matter. -/
theorem beforeFirst_append_of_infix : ∀ {x : List Char}, pattern <:+: x →
    beforeFirst pattern (x ++ y) = beforeFirst pattern x
  | [], hx => by
    obtain rfl := List.infix_nil.mp hx
    cases y with
    | nil => rfl
    | cons c y => rfl
  | c :: x, hx => by
    have hstart : pattern.isPrefixOf (c :: (x ++ y)) ↔ pattern.isPrefixOf (c :: x) := by
      rw [List.isPrefixOf_iff_prefix, List.isPrefixOf_iff_prefix]
      exact ⟨fun h => List.prefix_of_prefix_length_le h (List.prefix_append (c :: x) y) hx.length_le,
        fun h => h.trans (List.prefix_append (c :: x) y)⟩
    rw [List.cons_append, beforeFirst, beforeFirst]
    by_cases h : pattern.isPrefixOf (c :: x)
    · rw [if_pos h, if_pos (hstart.mpr h)]
    · have hinside : pattern <:+: x := (List.infix_cons_iff.mp hx).resolve_left fun hp =>
        h (List.isPrefixOf_iff_prefix.mpr hp)
      rw [if_neg h, if_neg (mt hstart.mp h), beforeFirst_append_of_infix hinside]

theorem pastLastPair_of_not_mem : ∀ {cs : List Char}, c ∉ cs → pastLastPair c cs = none
  | [], _ => rfl
  | d :: cs, h => by
    have hd : d ≠ c := fun he => h (he ▸ List.mem_cons_self)
    rw [pastLastPair, pastLastPair_of_not_mem fun hin => h (List.mem_cons_of_mem d hin)]
    exact if_neg fun hpair => hd hpair.1

/-- The last pair is the one behind which the character does not come again. -/
theorem pastLastPair_append (hy : c ∉ y) : ∀ x : List Char,
    pastLastPair c (x ++ c :: c :: y) = some (x.length + 2)
  | [] => by
    have hfirst : c ∉ y.head? := fun h => hy (List.mem_of_mem_head? h)
    simp only [List.nil_append, pastLastPair, pastLastPair_of_not_mem hy, List.head?_cons]
    rw [if_neg fun h => hfirst h.2]
    rfl
  | d :: x => by
    rw [List.cons_append, pastLastPair, pastLastPair_append hy x, List.length_cons]

/-! ### Lists of texts -/

theorem mem_intercalate {sep : List Char} : ∀ {items : List (List Char)},
    c ∈ sep.intercalate items → c ∈ sep ∨ ∃ item ∈ items, c ∈ item
  | [], h => by simp at h
  | [item], h => .inr ⟨item, List.mem_cons_self, by simpa using h⟩
  | item :: next :: items, h => by
    rw [List.intercalate_cons_cons, List.mem_append, List.mem_append] at h
    rcases h with (h | h) | h
    · exact .inr ⟨item, List.mem_cons_self, h⟩
    · exact .inl h
    · rcases mem_intercalate h with hsep | ⟨found, hfound, hc⟩
      · exact .inl hsep
      · exact .inr ⟨found, List.mem_cons_of_mem item hfound, hc⟩

theorem infix_intercalate {sep item : List Char} : ∀ {items : List (List Char)},
    item ∈ items → item <:+: sep.intercalate items
  | [only], h => by
    have honly : sep.intercalate [only] = item :=
      List.intercalate_singleton.trans (List.mem_singleton.mp h).symm
    exact honly ▸ List.infix_refl item
  | first :: next :: items, h => by
    rw [List.intercalate_cons_cons]
    rcases List.mem_cons.mp h with rfl | h
    · rw [List.append_assoc]
      exact (List.prefix_append item _).isInfix
    · exact (infix_intercalate h).trans (List.suffix_append _ _).isInfix

end

/-! ### Numbers -/

theorem natText_toList (n : Nat) : (toString n).toList = Nat.toDigits 10 n := by
  simp [toString, Nat.repr]

theorem isDigit_of_mem_natText {n : Nat} {c : Char} (h : c ∈ (toString n).toList) : c.isDigit := by
  rw [natText_toList] at h
  exact Nat.isDigit_of_mem_toDigits (by decide) (by decide) h

theorem natText_inj {m n : Nat} (h : toString m = toString n) : m = n := by
  have hdigits : Nat.toDigits 10 m = Nat.toDigits 10 n := by
    rw [← natText_toList, ← natText_toList, h]
  calc m = Nat.ofDigitChars 10 (Nat.toDigits 10 m) 0 :=
        (Nat.ofDigitChars_toDigits (by decide) (by decide)).symm
    _ = Nat.ofDigitChars 10 (Nat.toDigits 10 n) 0 := by rw [hdigits]
    _ = n := Nat.ofDigitChars_toDigits (by decide) (by decide)

end Text
end Inversion
