/-
# Selectors as texts

The last colon of a text stands behind the text of a type, unless there is nothing before
it or another colon. Then the type and the name are `Legible` in what they are displayed as
(`parse_of_legible`). Any other text, with or without colons, is a name
(`parse_of_untyped`). There is no third kind (`untyped_or_legible`), so a text is displayed
as it was written, and a selector is read as it was displayed exactly if it is legible, or a
name that no type stands in (`display_parse_exact`).
-/
import Mathlib.Logic.Function.Basic
import Inversion.Proofs.Text.Cut
import Inversion.Selector

namespace Inversion
namespace Selector

variable {s t m : String} {n : Option String}

/-- The text of a type and the name that it may have can be told apart with a colon
between them. -/
structure Legible (t : String) (n : Option String) : Prop where
  nonempty : t ≠ ""
  type : t.toList.getLast? ≠ some ':'
  name : ∀ m ∈ n, m ≠ "" ∧ ':' ∉ m.toList

/-- The last colon, if there is one, stands first or behind another colon. -/
def Untyped (s : String) : Prop :=
  ':' ∉ s.toList ∨ (∃ m, s = ":" ++ m ∧ ':' ∉ m.toList) ∨ ∃ t m, s = t ++ "::" ++ m ∧ ':' ∉ m.toList

theorem parse_of_not_mem (h : ':' ∉ s.toList) : parse s = .name s := by
  unfold parse
  rw [Text.splitLast_of_not_mem h]

theorem parse_of_colon (hm : ':' ∉ m.toList) : parse (t ++ ":" ++ m) =
    if t = "" ∨ t.toList.getLast? = some ':' then .name (t ++ ":" ++ m)
    else .parsed t (if m = "" then none else some m) := by
  have hs : (t ++ ":" ++ m).toList = t.toList ++ ':' :: m.toList := by simp
  unfold parse
  rw [hs, Text.splitLast_append hm]
  simp only [String.toList_eq_nil_iff, String.ofList_toList]

theorem parse_of_untyped (h : Untyped s) : parse s = .name s := by
  rcases h with hs | ⟨m, rfl, hm⟩ | ⟨t, m, rfl, hm⟩
  · exact parse_of_not_mem hs
  · have hparse := parse_of_colon (t := "") hm
    rwa [if_pos (.inl rfl), String.empty_append] at hparse
  · have hsplit : t ++ "::" ++ m = t ++ ":" ++ ":" ++ m := by simp [← String.toList_inj]
    rw [hsplit, parse_of_colon hm, if_pos (.inr (by simp))]

theorem parse_of_legible (h : Legible t n) : parse (display (.parsed t n)) = .parsed t n := by
  have htype : ¬ (t = "" ∨ t.toList.getLast? = some ':') := not_or.mpr ⟨h.nonempty, h.type⟩
  cases n with
  | none =>
    show parse (t ++ ":" ++ "") = .parsed t none
    rw [parse_of_colon (by simp), if_neg htype, if_pos rfl]
  | some m =>
    obtain ⟨hne, hm⟩ := h.name m rfl
    show parse (t ++ ":" ++ m) = .parsed t (some m)
    rw [parse_of_colon hm, if_neg htype, if_neg hne]

theorem untyped_or_legible (s : String) :
    Untyped s ∨ ∃ t n, Legible t n ∧ display (.parsed t n) = s := by
  rcases Text.splitLast_cases ':' s.toList with hs | ⟨before, behind, hs, hm⟩
  · exact .inl (.inl hs)
  obtain ⟨t, rfl⟩ : ∃ t : String, t.toList = before := ⟨_, String.toList_ofList⟩
  obtain ⟨m, rfl⟩ : ∃ m : String, m.toList = behind := ⟨_, String.toList_ofList⟩
  obtain rfl : s = t ++ ":" ++ m := String.toList_inj.mp (by simpa using hs)
  by_cases hempty : t = ""
  · exact .inl (.inr (.inl ⟨m, by rw [hempty, String.empty_append], hm⟩))
  by_cases hlast : t.toList.getLast? = some ':'
  · obtain ⟨front, hfront⟩ := List.getLast?_eq_some_iff.mp hlast
    refine .inl (.inr (.inr ⟨String.ofList front, m, ?_, hm⟩))
    simp [← String.toList_inj, hfront]
  · refine .inr ⟨t, if m = "" then none else some m, ⟨hempty, hlast, fun k hk => ?_⟩, ?_⟩
    · split at hk
      · cases hk
      · cases hk
        exact ⟨‹_›, hm⟩
    · show t ++ ":" ++ _ = _
      split
      · simp [*]
      · rfl

theorem display_parse (s : String) : (parse s).display = s := by
  rcases untyped_or_legible s with hs | ⟨t, n, h, rfl⟩
  · rw [parse_of_untyped hs]
    rfl
  · rw [parse_of_legible h]

theorem parse_eq_name_iff {k : String} : parse s = .name k ↔ s = k ∧ Untyped s := by
  constructor
  · intro hs
    rcases untyped_or_legible s with h | ⟨t, n, h, rfl⟩
    · exact ⟨Selector.name.inj ((parse_of_untyped h).symm.trans hs), h⟩
    · cases (parse_of_legible h).symm.trans hs
  · rintro ⟨rfl, h⟩
    exact parse_of_untyped h

theorem parse_eq_parsed_iff : parse s = .parsed t n ↔ s = display (.parsed t n) ∧ Legible t n := by
  constructor
  · intro hs
    rcases untyped_or_legible s with h | ⟨t', n', h, rfl⟩
    · cases (parse_of_untyped h).symm.trans hs
    · cases (parse_of_legible h).symm.trans hs
      exact ⟨rfl, h⟩
  · rintro ⟨rfl, h⟩
    exact parse_of_legible h

/-- A text that is read as a selector is displayed as it was. A type and a name, or a type
alone, are read as they were displayed if and only if the text of the type neither is empty
nor ends with a colon, and the name, if there is one, is not empty and has no colon; a name
alone if and only if it has no colon, or its last one stands first or behind another. -/
theorem display_parse_exact :
    (∀ s, (parse s).display = s) ∧ Function.Injective parse ∧
    (∀ t n, parse (display (.parsed t n)) = .parsed t n ↔
      t ≠ "" ∧ t.toList.getLast? ≠ some ':' ∧ ∀ m ∈ n, m ≠ "" ∧ ':' ∉ m.toList) ∧
    ∀ k, parse (display (.name k)) = .name k ↔
      ':' ∉ k.toList ∨ (∃ m, k = ":" ++ m ∧ ':' ∉ m.toList) ∨
        ∃ t m, k = t ++ "::" ++ m ∧ ':' ∉ m.toList := by
  refine ⟨display_parse, Function.LeftInverse.injective display_parse, fun t n => ?_, fun k => ?_⟩
  · rw [parse_eq_parsed_iff, and_iff_right rfl]
    exact ⟨fun h => ⟨h.nonempty, h.type, h.name⟩, fun ⟨hne, ht, hn⟩ => ⟨hne, ht, hn⟩⟩
  · exact parse_eq_name_iff.trans (and_iff_right rfl)

example : parse "app::Repo" = .name "app::Repo" := by decide

example : parse "app::Repo:db" = .parsed "app::Repo" (some "db") := by decide

end Selector
end Inversion
