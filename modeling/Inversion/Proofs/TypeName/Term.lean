/-
# Types as they are written

The name of a type is a path of identifiers, with the types it is applied to between angle
brackets, or it is made of other types: an interface of its bounds, a tuple of its items and so on.
`TypeTerm.text` writes such a term down.

A plus sign is written in front of a further bound and nowhere else, so it stands among the
arguments of a type exactly if an interface with further bounds stands in one of them
(`plus_infix_iff`).
-/
import Inversion.Proofs.Text.Cut

namespace Inversion

/-- A part of a path. It has none of the characters that stand between the parts of a name. -/
structure Identifier where
  text : List Char
  nonempty : text ≠ [] := by decide
  unmarked : text.all (fun c => !" :+<>,".toList.contains c) := by decide

theorem Identifier.not_mem (i : Identifier) {c : Char} (hc : " :+<>,".toList.contains c) :
    c ∉ i.text := by
  intro h
  have hunmarked := List.all_eq_true.mp i.unmarked c h
  rw [hc] at hunmarked
  cases hunmarked

/-- The modules around a type and its own name, the last segment. -/
structure TypePath where
  modules : List Identifier
  segment : Identifier

def TypePath.text (path : TypePath) : List Char :=
  path.modules.flatMap (fun i => i.text ++ "::".toList) ++ path.segment.text

/-- The segment stands behind the last pair of colons. -/
theorem TypePath.text_of_modules (path : TypePath) (h : path.modules ≠ []) :
    ∃ front, path.text = front ++ ':' :: ':' :: path.segment.text := by
  obtain ⟨outer, last, hlast⟩ := (List.eq_nil_or_concat path.modules).resolve_left h
  refine ⟨outer.flatMap (fun i => i.text ++ "::".toList) ++ last.text, ?_⟩
  rw [text, hlast, List.concat_eq_append]
  simp

theorem TypePath.not_mem (path : TypePath) {c : Char} (hc : " :+<>,".toList.contains c)
    (hcolon : c ∉ "::".toList) : c ∉ path.text := by
  intro h
  rcases List.mem_append.mp h with h | h
  · obtain ⟨i, -, hi⟩ := List.mem_flatMap.mp h
    exact (List.mem_append.mp hi).elim (i.not_mem hc) hcolon
  · exact path.segment.not_mem hc h

/-- What a pointer is written with in front of its target. -/
inductive Pointer where
  | shared
  | exclusive
  | constant
  | mutable

def Pointer.text : Pointer → List Char
  | shared => "&".toList
  | exclusive => "&mut ".toList
  | constant => "*const ".toList
  | mutable => "*mut ".toList

/-- A type, or what else may stand among the arguments of one: a number is a path of one segment, and
a binding says what an associated type is. -/
inductive TypeTerm where
  | path (path : TypePath) (arguments : List TypeTerm)
  | interface (first : TypeTerm) (further : List TypeTerm)
  | binding (name : Identifier) (value : TypeTerm)
  | pointer (kind : Pointer) (target : TypeTerm)
  | tuple (items : List TypeTerm)
  | slice (item : TypeTerm)
  | array (item : TypeTerm) (length : Nat)
  | function (parameters : List TypeTerm) (result : TypeTerm)

namespace TypeTerm

/-- What the further bounds of an interface are written after. -/
def plus : List Char :=
  " + ".toList

def commas (items : List (List Char)) : List Char :=
  ", ".toList.intercalate items

/-- The arguments of a type in angle brackets, nothing if there are none. -/
def bracketed : List (List Char) → List Char
  | [] => []
  | items => '<' :: commas items ++ ['>']

mutual

def text : TypeTerm → List Char
  | path p arguments => p.text ++ bracketed (texts arguments)
  | interface first further => "dyn ".toList ++ plus.intercalate (first.text :: texts further)
  | binding name value => name.text ++ " = ".toList ++ value.text
  | pointer kind target => kind.text ++ target.text
  | tuple [item] => '(' :: item.text ++ ",)".toList
  | tuple items => '(' :: commas (texts items) ++ [')']
  | slice item => '[' :: item.text ++ [']']
  | array item length => '[' :: item.text ++ "; ".toList ++ (toString length).toList ++ [']']
  | function parameters result =>
    "fn(".toList ++ commas (texts parameters) ++ ") -> ".toList ++ result.text

def texts : List TypeTerm → List (List Char)
  | [] => []
  | t :: ts => t.text :: texts ts

end

theorem texts_eq_map : ∀ ts : List TypeTerm, texts ts = ts.map text
  | [] => rfl
  | t :: ts => by rw [texts, texts_eq_map ts, List.map_cons]

/-- The terms that a term is made of. -/
def parts : TypeTerm → List TypeTerm
  | path _ arguments => arguments
  | interface first further => first :: further
  | binding _ value => [value]
  | pointer _ target => [target]
  | tuple items => items
  | slice item => [item]
  | array item _ => [item]
  | function parameters result => parameters ++ [result]

/-- The term is an interface with further bounds, or one stands in it. -/
inductive Compound : TypeTerm → Prop
  | here {first : TypeTerm} {further : List TypeTerm} (several : further ≠ []) :
    Compound (interface first further)
  | inside {t part : TypeTerm} (among : part ∈ t.parts) (compound : Compound part) : Compound t

theorem sizeOf_lt_of_mem_parts {t part : TypeTerm} (h : part ∈ t.parts) : sizeOf part < sizeOf t := by
  cases t with
  | path p arguments =>
    have hlt : sizeOf part < sizeOf arguments := List.sizeOf_lt_of_mem h
    simp only [path.sizeOf_spec]
    omega
  | interface first further =>
    simp only [interface.sizeOf_spec]
    rcases List.mem_cons.mp h with rfl | h
    · omega
    · have hlt := List.sizeOf_lt_of_mem h
      omega
  | tuple items =>
    have hlt : sizeOf part < sizeOf items := List.sizeOf_lt_of_mem h
    simp only [tuple.sizeOf_spec]
    omega
  | function parameters result =>
    simp only [function.sizeOf_spec]
    rcases List.mem_append.mp h with h | h
    · have hlt := List.sizeOf_lt_of_mem h
      omega
    · rw [List.mem_singleton.mp h]
      omega
  | binding _ only | pointer _ only | slice only | array only _ =>
    rw [List.mem_singleton.mp h]
    decreasing_tactic

/-! ### Plus signs -/

section
variable {t part : TypeTerm} {ts : List TypeTerm}

theorem mem_texts (h : t ∈ ts) : t.text ∈ texts ts := by
  rw [texts_eq_map]
  exact List.mem_map_of_mem h

theorem commas_infix_bracketed : ∀ items : List (List Char), commas items <:+: bracketed items
  | [] => List.infix_refl _
  | _ :: _ => ⟨['<'], ['>'], rfl⟩

/-- A part of a term is written somewhere in the text of the term. -/
theorem text_within (h : part ∈ t.parts) : part.text <:+: t.text := by
  cases t with
  | path p arguments =>
    have harguments : part.text <:+: commas (texts arguments) := Text.infix_intercalate (mem_texts h)
    exact (harguments.trans (commas_infix_bracketed _)).trans (List.suffix_append _ _).isInfix
  | interface first further =>
    have hbounds : part.text <:+: plus.intercalate (texts (first :: further)) :=
      Text.infix_intercalate (mem_texts h)
    exact hbounds.trans (List.suffix_append _ _).isInfix
  | binding name value =>
    rw [List.mem_singleton.mp h]
    exact (List.suffix_append _ _).isInfix
  | pointer kind target =>
    rw [List.mem_singleton.mp h]
    exact (List.suffix_append _ _).isInfix
  | tuple items =>
    match items, h with
    | [item], h =>
      rw [List.mem_singleton.mp h]
      exact ⟨['('], ",)".toList, rfl⟩
    | first :: next :: items, h =>
      exact (Text.infix_intercalate (mem_texts h)).trans ⟨['('], [')'], rfl⟩
  | slice item =>
    rw [List.mem_singleton.mp h]
    exact ⟨['['], [']'], rfl⟩
  | array item length =>
    rw [List.mem_singleton.mp h]
    exact ⟨['['], "; ".toList ++ (toString length).toList ++ [']'], by simp [text]⟩
  | function parameters result =>
    rcases List.mem_append.mp h with h | h
    · have hparameters : part.text <:+: commas (texts parameters) :=
        Text.infix_intercalate (mem_texts h)
      exact hparameters.trans ⟨"fn(".toList, ") -> ".toList ++ result.text, by simp [text]⟩
    · rw [List.mem_singleton.mp h]
      exact (List.suffix_append _ _).isInfix

theorem plus_of_commas (h : '+' ∈ commas (texts ts)) : ∃ t ∈ ts, '+' ∈ t.text := by
  rcases Text.mem_intercalate h with hsep | ⟨item, hitem, hplus⟩
  · exact absurd hsep (by decide)
  · rw [texts_eq_map] at hitem
    obtain ⟨t, ht, rfl⟩ := List.mem_map.mp hitem
    exact ⟨t, ht, hplus⟩

theorem plus_of_bracketed (h : '+' ∈ bracketed (texts ts)) : ∃ t ∈ ts, '+' ∈ t.text := by
  cases ts with
  | nil => cases h
  | cons t ts => exact plus_of_commas (by simpa [texts, bracketed] using h)

/-- A plus sign stands in a part already, or it is written in front of a further bound. -/
theorem plus_cases (h : '+' ∈ t.text) :
    (∃ part ∈ t.parts, '+' ∈ part.text) ∨
      ∃ first further, further ≠ [] ∧ t = interface first further := by
  cases t with
  | path p arguments =>
    have hpath : '+' ∉ p.text := p.not_mem (by decide) (by decide)
    exact .inl (plus_of_bracketed ((List.mem_append.mp h).resolve_left hpath))
  | interface first further =>
    cases further with
    | nil => exact .inl ⟨first, List.mem_cons_self, by simpa [text, texts] using h⟩
    | cons next further => exact .inr ⟨first, next :: further, List.cons_ne_nil _ _, rfl⟩
  | binding name value =>
    have hname : '+' ∉ name.text := name.not_mem (by decide)
    exact .inl ⟨value, List.mem_cons_self, by simpa [text, hname] using h⟩
  | pointer kind target =>
    have hkind : '+' ∉ kind.text := by cases kind <;> decide
    exact .inl ⟨target, List.mem_cons_self, (List.mem_append.mp h).resolve_left hkind⟩
  | tuple items =>
    match items, h with
    | [], h => exact absurd h (by decide)
    | [item], h => exact .inl ⟨item, List.mem_cons_self, by simpa [text] using h⟩
    | first :: next :: items, h =>
      have hitems : '+' ∈ commas (texts (first :: next :: items)) := by simpa [text] using h
      exact .inl (plus_of_commas hitems)
  | slice item => exact .inl ⟨item, List.mem_cons_self, by simpa [text] using h⟩
  | array item length =>
    have hlength : '+' ∉ Nat.toDigits 10 length := by
      rw [← Text.natText_toList]
      exact fun hi => absurd (Text.isDigit_of_mem_natText hi) (by decide)
    exact .inl ⟨item, List.mem_cons_self, by simpa [text, hlength] using h⟩
  | function parameters result =>
    have hparts : '+' ∈ commas (texts parameters) ∨ '+' ∈ result.text := by simpa [text] using h
    rcases hparts with h | h
    · obtain ⟨t, ht, hplus⟩ := plus_of_commas h
      exact .inl ⟨t, List.mem_append_left _ ht, hplus⟩
    · exact .inl ⟨result, List.mem_append_right _ (List.mem_singleton_self result), h⟩

theorem compound_of_plus {t : TypeTerm} (h : '+' ∈ t.text) : t.Compound := by
  rcases plus_cases h with ⟨part, hpart, hplus⟩ | ⟨first, further, hfurther, rfl⟩
  · -- The plus sign is followed down to the interface it belongs to.
    have hless := sizeOf_lt_of_mem_parts hpart
    exact .inside hpart (compound_of_plus hplus)
  · exact .here hfurther
termination_by t

theorem Compound.plus_within (h : t.Compound) : plus <:+: t.text := by
  induction h with
  | @here first further hfurther =>
    obtain ⟨next, further, rfl⟩ := List.exists_cons_of_ne_nil hfurther
    refine ⟨"dyn ".toList ++ first.text, plus.intercalate (texts (next :: further)), ?_⟩
    rw [text, texts, List.intercalate_cons_cons]
    simp only [List.append_assoc]
  | inside hpart _ ih => exact ih.trans (text_within hpart)

/-- A plus between blanks stands in a list of terms exactly if one of them is compound. -/
theorem plus_infix_iff : plus <:+: commas (texts ts) ↔ ∃ t ∈ ts, t.Compound := by
  constructor
  · intro h
    obtain ⟨t, ht, hplus⟩ := plus_of_commas (h.subset (by decide))
    exact ⟨t, ht, compound_of_plus hplus⟩
  · rintro ⟨t, ht, hcompound⟩
    exact hcompound.plus_within.trans (Text.infix_intercalate (mem_texts ht))

end

end TypeTerm
end Inversion
