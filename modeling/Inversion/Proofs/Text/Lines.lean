/-
# Blanks and lines

Every text is a text that neither starts nor ends with a blank, between two runs of blanks
(`exists_pads`), and such a text is what trimming leaves of it (`trim_pad`).

A text is cut into lines at its line feeds: the first line, up to a carriage return that
belongs to its end, and the lines of the rest (`lines_append_newline`). So to read the lines of
a text that ends with a line feed and then those of a second text is to read the lines of both
(`lines_append`), and any number of lines of a text are the lines of a first part of it
(`exists_prefix`).
-/
import Inversion.Text.Blank
import Inversion.Text.Lines
import Inversion.Proofs.Text.Cut
import Mathlib.Data.List.TakeWhile

namespace Inversion
namespace Text

/-! ### Blanks -/

/-- There are only blanks. -/
def AllBlank (cs : List Char) : Prop :=
  ∀ c ∈ cs, isBlank c

/-- There is no blank at either end. -/
structure Bare (cs : List Char) : Prop where
  first : ∀ c ∈ cs.head?, ¬isBlank c
  last : ∀ c ∈ cs.getLast?, ¬isBlank c

section
variable {cs pad pad' : List Char} {c : Char}

theorem allBlank_nil : AllBlank [] :=
  fun _ hc => absurd hc List.not_mem_nil

theorem bare_nil : Bare [] :=
  ⟨by simp, by simp⟩

instance : Decidable (AllBlank cs) :=
  decidable_of_iff (cs.all isBlank) List.all_eq_true

instance : Decidable (Bare cs) :=
  decidable_of_iff (cs.head?.all (!isBlank ·) ∧ cs.getLast?.all (!isBlank ·))
    ⟨fun ⟨hfirst, hlast⟩ =>
        ⟨by simpa [Option.all_eq_true] using hfirst, by simpa [Option.all_eq_true] using hlast⟩,
      fun ⟨hfirst, hlast⟩ =>
        ⟨by simpa [Option.all_eq_true] using hfirst, by simpa [Option.all_eq_true] using hlast⟩⟩

theorem AllBlank.append (h : AllBlank pad) (h' : AllBlank pad') : AllBlank (pad ++ pad') :=
  fun c hc => (List.mem_append.mp hc).elim (h c) (h' c)

theorem AllBlank.dropWhile (h : AllBlank pad) : pad.dropWhile isBlank = [] :=
  List.dropWhile_eq_nil_iff.mpr h

theorem dropWhile_of_head (h : ∀ c ∈ cs.head?, ¬isBlank c) : cs.dropWhile isBlank = cs := by
  cases cs with
  | nil => rfl
  | cons c cs => rw [List.dropWhile_cons_of_neg (h c rfl)]

theorem trim_pad (hpad : AllBlank pad) (h : Bare cs) (hpad' : AllBlank pad') :
    trim (pad ++ cs ++ pad') = cs := by
  have hstart : trimStart (pad ++ cs ++ pad') = (cs ++ pad').dropWhile isBlank := by
    rw [trimStart, List.append_assoc, List.dropWhile_append_of_pos hpad]
  cases cs with
  | nil =>
    rw [trim, hstart, List.nil_append, hpad'.dropWhile]
    rfl
  | cons c cs =>
    have hfirst : (c :: cs ++ pad').dropWhile isBlank = c :: cs ++ pad' :=
      dropWhile_of_head fun d hd => h.first d hd
    have hlast : (c :: cs).reverse.dropWhile isBlank = (c :: cs).reverse :=
      dropWhile_of_head fun d hd => h.last d (by rwa [List.head?_reverse] at hd)
    have hback : AllBlank pad'.reverse := fun d hd => hpad' d (List.mem_reverse.mp hd)
    rw [trim, hstart, hfirst, trimEnd, List.reverse_append, List.dropWhile_append_of_pos hback, hlast,
      List.reverse_reverse]

theorem head?_dropWhile (cs : List Char) : ∀ c ∈ (cs.dropWhile isBlank).head?, ¬isBlank c := by
  intro c hc
  have hnot := List.head?_dropWhile_not isBlank cs
  rw [hc] at hnot
  exact Bool.eq_false_iff.mp hnot

theorem exists_pads (cs : List Char) :
    ∃ pad pad', AllBlank pad ∧ AllBlank pad' ∧ Bare (trim cs) ∧ cs = pad ++ trim cs ++ pad' := by
  have hback : trimStart cs =
      trim cs ++ ((trimStart cs).reverse.takeWhile isBlank).reverse := by
    rw [trim, trimEnd, ← List.reverse_append, List.takeWhile_append_dropWhile, List.reverse_reverse]
  refine ⟨cs.takeWhile isBlank, ((trimStart cs).reverse.takeWhile isBlank).reverse,
    fun c hc => List.mem_takeWhile_imp hc,
    fun c hc => List.mem_takeWhile_imp (List.mem_reverse.mp hc), ⟨fun c hc => ?_, fun c hc => ?_⟩, ?_⟩
  · have hfirst : c ∈ (trimStart cs).head? := by
      rw [hback, List.head?_append, Option.mem_def.mp hc, Option.some_or]
      rfl
    exact head?_dropWhile cs c hfirst
  · rw [trim, trimEnd, List.getLast?_reverse] at hc
    exact head?_dropWhile _ c hc
  · rw [List.append_assoc, ← hback]
    exact List.takeWhile_append_dropWhile.symm

theorem trim_of_allBlank (h : AllBlank cs) : trim cs = [] := by
  have htrim := trim_pad h bare_nil allBlank_nil
  rwa [List.append_nil, List.append_nil] at htrim

theorem allBlank_of_trim (h : trim cs = []) : AllBlank cs := by
  obtain ⟨pad, pad', hpad, hpad', -, heq⟩ := exists_pads cs
  rw [heq, h, List.append_nil]
  exact hpad.append hpad'

/-- Blanks around a text do not count. -/
theorem trim_append (hpad : AllBlank pad) (cs : List Char) (hpad' : AllBlank pad') :
    trim (pad ++ cs ++ pad') = trim cs := by
  obtain ⟨q, q', hq, hq', hbare, heq⟩ := exists_pads cs
  have hassoc : pad ++ cs ++ pad' = (pad ++ q) ++ trim cs ++ (q' ++ pad') :=
    calc pad ++ cs ++ pad' = pad ++ (q ++ trim cs ++ q') ++ pad' := congrArg (pad ++ · ++ pad') heq
      _ = (pad ++ q) ++ trim cs ++ (q' ++ pad') := by simp only [List.append_assoc]
  rw [hassoc]
  exact trim_pad (hpad.append hq) hbare (hq'.append hpad')

/-- A text starts, once it is trimmed, with its first character that is not blank. -/
theorem trim_of_cons (hpad : AllBlank pad) (hc : ¬isBlank c) (cs : List Char) :
    ∃ rest pad', AllBlank pad' ∧ cs = rest ++ pad' ∧ trim (pad ++ c :: cs) = c :: rest := by
  obtain ⟨q, q', hq, hq', hbare, heq⟩ := exists_pads (c :: cs)
  have htrim : trim (pad ++ c :: cs) = trim (c :: cs) := by
    have happ := trim_append hpad (c :: cs) allBlank_nil
    rwa [List.append_nil] at happ
  have hq : q = [] := by
    cases q with
    | nil => rfl
    | cons d q =>
      obtain ⟨rfl, -⟩ := List.cons.inj heq
      exact absurd (hq c List.mem_cons_self) hc
  subst hq
  rw [List.nil_append] at heq
  cases ht : trim (c :: cs) with
  | nil =>
    rw [ht, List.nil_append] at heq
    exact absurd (hq' c (heq ▸ List.mem_cons_self)) hc
  | cons d rest =>
    rw [ht] at heq
    obtain ⟨rfl, hcs⟩ := List.cons.inj heq
    exact ⟨rest, q', hq', hcs, htrim.trans ht⟩

/-- What starts and ends with characters that are not blank stays as it is. -/
theorem trim_of_cut (ds : List Char) (hpad : AllBlank pad) (hne : ds ≠ []) (hfirst : ∀ d ∈ ds.head?, ¬isBlank d)
    (hc : ¬isBlank c) (cs : List Char) :
    ∃ rest pad', AllBlank pad' ∧ cs = rest ++ pad' ∧
      trim (pad ++ ds ++ c :: cs) = ds ++ c :: rest := by
  obtain ⟨d, ds, rfl⟩ := List.exists_cons_of_ne_nil hne
  obtain ⟨rest, pad', hpad', hrest, htrim⟩ := trim_of_cons hpad (hfirst d rfl) (ds ++ c :: cs)
  rw [List.append_assoc, List.cons_append, htrim]
  rcases List.append_eq_append_iff.mp hrest with ⟨behind, rfl, hbehind⟩ | ⟨front, rfl, rfl⟩
  · cases behind with
    | nil =>
      rw [List.nil_append] at hbehind
      exact absurd (hpad' c (hbehind ▸ List.mem_cons_self)) hc
    | cons e behind =>
      obtain ⟨rfl, hcs⟩ := List.cons.inj hbehind
      exact ⟨behind, pad', hpad', hcs, rfl⟩
  · exact absurd (hpad' c (List.mem_append_right front List.mem_cons_self)) hc

end

/-! ### Lines -/

/-- A text that is empty or ends with a line feed. -/
def Ended (cs : List Char) : Prop :=
  ∀ c ∈ cs.getLast?, c = '\n'

instance (cs : List Char) : Decidable (Ended cs) :=
  decidable_of_iff (cs.getLast?.all (· = '\n')) (by simp [Ended, Option.all_eq_true])

section
variable {cs l a b : List Char} {c : Char}

theorem lines_cons (hc : c ≠ '\n') (h : c = '\r' → cs.head? ≠ some '\n') :
    lines (c :: cs) = ((lines cs).head?.elim [c] (c :: ·)) :: (lines cs).tail := by
  rw [lines.eq_def]
  split
  · cases ‹c :: cs = []›
  · cases ‹c :: cs = _›
    exact absurd rfl hc
  · cases ‹c :: cs = _›
    exact absurd rfl (h rfl)
  · rename_i heq
    cases heq
    cases lines cs <;> rfl

/-- A text up to its first line feed is a line, and the rest is cut on its own. -/
theorem lines_append_newline : ∀ {l : List Char}, '\n' ∉ l →
    ∃ l', (l = l' ∨ l = l' ++ ['\r']) ∧ ∀ cs, lines (l ++ '\n' :: cs) = l' :: lines cs
  | [], _ => ⟨[], .inl rfl, fun cs => by rw [List.nil_append, lines]⟩
  | c :: l, h => by
    have hc : c ≠ '\n' := fun he => h (he ▸ List.mem_cons_self)
    have hl : '\n' ∉ l := fun hin => h (List.mem_cons_of_mem c hin)
    by_cases hreturn : c = '\r' ∧ l = []
    · obtain ⟨rfl, rfl⟩ := hreturn
      exact ⟨[], .inr rfl, fun cs => by rw [List.singleton_append, lines]⟩
    · obtain ⟨l', hl', hlines⟩ := lines_append_newline hl
      refine ⟨c :: l', ?_, fun cs => ?_⟩
      · rcases hl' with rfl | rfl
        · exact .inl rfl
        · exact .inr rfl
      · have hhead : c = '\r' → (l ++ '\n' :: cs).head? ≠ some '\n' := by
          intro hcr
          cases l with
          | nil => exact absurd ⟨hcr, rfl⟩ hreturn
          | cons d l =>
            rintro ⟨⟩
            exact hl List.mem_cons_self
        rw [List.cons_append, lines_cons hc hhead, hlines]
        rfl

theorem lines_of_not_mem : ∀ {l : List Char}, '\n' ∉ l → l ≠ [] → lines l = [l]
  | [c], h, _ => by
    have hc : c ≠ '\n' := fun he => h (he ▸ List.mem_cons_self)
    rw [lines_cons hc (by simp), lines]
    rfl
  | c :: d :: l, h, _ => by
    have hc : c ≠ '\n' := fun he => h (he ▸ List.mem_cons_self)
    have hl : '\n' ∉ d :: l := fun hin => h (List.mem_cons_of_mem c hin)
    have hhead : c = '\r' → (d :: l).head? ≠ some '\n' := by
      rintro - ⟨⟩
      exact hl List.mem_cons_self
    rw [lines_cons hc hhead, lines_of_not_mem hl nofun]
    rfl

/-- What holds of every text without a line feed, and of every text with a line more than
one of which it holds, holds of all texts. -/
theorem lines_induction {P : List Char → Prop} (last : ∀ l, '\n' ∉ l → P l)
    (line : ∀ l cs, '\n' ∉ l → P cs → P (l ++ '\n' :: cs)) (cs : List Char) : P cs := by
  by_cases h : '\n' ∈ cs
  · obtain ⟨l, rest, rfl, hl⟩ := List.eq_append_cons_of_mem h
    exact line l rest hl (lines_induction last line rest)
  · exact last cs h
termination_by cs.length
decreasing_by
  subst cs
  rw [List.length_append, List.length_cons]
  omega

theorem Ended.eq_nil (h : Ended cs) (hcs : '\n' ∉ cs) : cs = [] := by
  rcases List.eq_nil_or_concat cs with rfl | ⟨front, c, rfl⟩
  · rfl
  · obtain rfl : c = '\n' := h c (by simp)
    simp at hcs

theorem Ended.rest (h : Ended (l ++ '\n' :: cs)) : Ended cs := by
  intro c hc
  refine h c ?_
  rw [List.getLast?_append, List.getLast?_cons, Option.mem_def.mp hc]
  rfl

theorem Ended.line (h : Ended cs) (l : List Char) : Ended (l ++ '\n' :: cs) := by
  intro c hc
  rw [List.getLast?_append, List.getLast?_cons, Option.some_or, Option.mem_some_iff] at hc
  cases hlast : cs.getLast? with
  | none => simpa [hlast] using hc.symm
  | some d =>
    rw [hlast] at hc
    exact hc ▸ h d hlast

theorem lines_append (h : Ended a) (b : List Char) : lines (a ++ b) = lines a ++ lines b := by
  induction a using lines_induction with
  | last l hl =>
    rw [h.eq_nil hl, lines]
    rfl
  | line l cs hl ih =>
    obtain ⟨l', -, hlines⟩ := lines_append_newline hl
    rw [List.append_assoc, List.cons_append, hlines, hlines, ih h.rest]
    rfl

theorem length_lines (h : Ended a) : (lines a).length = a.count '\n' := by
  induction a using lines_induction with
  | last l hl =>
    rw [h.eq_nil hl, lines]
    rfl
  | line l cs hl ih =>
    obtain ⟨l', -, hlines⟩ := lines_append_newline hl
    rw [hlines, List.length_cons, ih h.rest, List.count_append, List.count_cons_self,
      List.count_eq_zero.mpr hl, Nat.zero_add]

/-- The first lines of a text are those of a first part of it. -/
theorem exists_prefix {front rest : List (List Char)} (hrest : rest ≠ []) :
    ∀ {cs : List Char}, lines cs = front ++ rest →
      ∃ a b, cs = a ++ b ∧ Ended a ∧ lines a = front ∧ lines b = rest := by
  induction front with
  | nil => exact fun {cs} h => ⟨[], cs, rfl, by simp [Ended], rfl, h⟩
  | cons l front ih =>
    intro cs h
    by_cases hin : '\n' ∈ cs
    · obtain ⟨first, cs, rfl, hfirst⟩ := List.eq_append_cons_of_mem hin
      obtain ⟨l', -, hlines⟩ := lines_append_newline hfirst
      rw [hlines, List.cons_append] at h
      obtain ⟨rfl, hrest⟩ := List.cons.inj h
      obtain ⟨a, b, rfl, ha, rfl, rfl⟩ := ih hrest
      exact ⟨first ++ '\n' :: a, b, by simp, ha.line first, hlines a, rfl⟩
    · -- a single line has none behind it
      have hshort : (lines cs).length ≤ 1 := by
        by_cases hcs : cs = []
        · rw [hcs, lines]
          exact Nat.zero_le 1
        · rw [lines_of_not_mem hin hcs]
          exact Nat.le_refl 1
      rw [h, List.length_append, List.length_cons] at hshort
      have hpos : 0 < rest.length := List.length_pos_iff.mpr hrest
      omega

end

end Text
end Inversion
