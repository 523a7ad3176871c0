/-
# The short names of generic types

The short name of a type that is applied to arguments is its last segment with them, whatever path
is in front and whatever bounds are behind, as long as no plus between blanks stands among the
arguments. If one does, as in an argument that is an interface with further bounds, the short name
ends in front of it, in the middle of the arguments (`short_of_plus`).

So the segment and the arguments, with a colon behind, select the beans of the type and those that
are exported as it, exactly if no argument has such an interface in it (`arguments_kept_iff`).
-/
import Inversion.Container
import Inversion.Proofs.Selector
import Inversion.Proofs.TypeName.Term

namespace Inversion

open TypeTerm (plus commas texts)

/-- A type that is applied to arguments, which may be any text, or an interface that is, with the
texts of its further bounds. -/
structure Generic where
  path : TypePath
  arguments : List Char
  further : Option (List (List Char))
  /-- Tells the type from others of its name. -/
  number : Nat := 0

namespace Generic

variable {g : Generic}

/-- The last segment with its arguments. -/
def ending (g : Generic) : List Char :=
  g.path.segment.text ++ '<' :: g.arguments ++ ['>']

def written (g : Generic) : List Char :=
  match g.further with
  | none => g.path.text ++ '<' :: g.arguments ++ ['>']
  | some bounds =>
    "dyn ".toList ++ g.path.text ++ '<' :: g.arguments ++ '>' :: bounds.flatMap (plus ++ ·)

def type (g : Generic) : TypeName :=
  ⟨String.ofList g.written, g.number⟩

/-- The selector of all beans of the type. -/
def selector (g : Generic) : Selector :=
  .parse (String.ofList g.ending ++ ":")

/-! ### The short name -/

theorem blank_not_mem (path : TypePath) : ' ' ∉ path.text :=
  path.not_mem (by decide) (by decide)

theorem bare_of_path (path : TypePath) (rest : List Char) :
    TypeName.bare (path.text ++ '<' :: rest) = path.text ++ '<' :: rest := by
  refine if_neg fun hdyn => ?_
  have hbegins := Text.prefix_of_append_cons (by decide) (List.isPrefixOf_iff_prefix.mp hdyn)
  exact blank_not_mem path (hbegins.subset (by decide))

theorem bare_of_dyn (cs : List Char) : TypeName.bare ("dyn ".toList ++ cs) = cs :=
  if_pos (List.isPrefixOf_iff_prefix.mpr (List.prefix_append _ cs))

/-- The path goes, except for its last segment, and what comes behind the opening bracket is cut at
the first plus. -/
theorem shortChars_of_bare {path : TypePath} {cs rest : List Char}
    (h : TypeName.bare cs = path.text ++ '<' :: rest) :
    TypeName.shortChars cs = path.segment.text ++ '<' :: Text.beforeFirst plus rest := by
  -- The plus is looked for before the brackets are: there is none in the path, but the first one
  -- behind it may be within the arguments.
  have hplus : ¬plus <:+: path.text := fun hin => blank_not_mem path (hin.subset (by decide))
  have hbound : Text.beforeFirst plus (path.text ++ '<' :: rest) =
      path.text ++ '<' :: Text.beforeFirst plus rest :=
    Text.beforeFirst_append_cons (by decide) hplus
  have hhead : Text.beforeFirst ['<'] (path.text ++ '<' :: Text.beforeFirst plus rest) = path.text :=
    Text.beforeFirst_singleton (path.not_mem (by decide) (by decide))
  have hcolon : ':' ∉ path.segment.text := path.segment.not_mem (by decide)
  unfold TypeName.shortChars
  simp only [h, show " + ".toList = plus from rfl, hbound, hhead]
  by_cases hmodules : path.modules = []
  · have htext : path.text = path.segment.text := by simp [TypePath.text, hmodules]
    rw [htext, Text.pastLastPair_of_not_mem hcolon]
  · obtain ⟨front, htext⟩ := path.text_of_modules hmodules
    rw [htext, Text.pastLastPair_append hcolon]
    simp

theorem beforeFirst_bounds : ∀ bounds : List (List Char),
    Text.beforeFirst plus (bounds.flatMap (plus ++ ·)) = []
  | [] => rfl
  | bound :: bounds => by
    rw [List.flatMap_cons]
    rfl

/-- Of what comes behind the opening bracket, nothing but the closing one counts. -/
theorem shortChars_written (g : Generic) : ∃ rest, Text.beforeFirst plus rest = [] ∧
    TypeName.shortChars g.written =
      g.path.segment.text ++ '<' :: Text.beforeFirst plus (g.arguments ++ '>' :: rest) := by
  unfold written
  cases g.further with
  | none =>
    refine ⟨[], rfl, shortChars_of_bare ?_⟩
    rw [List.append_assoc]
    exact bare_of_path g.path _
  | some bounds =>
    refine ⟨bounds.flatMap (plus ++ ·), beforeFirst_bounds bounds, shortChars_of_bare ?_⟩
    simp only [List.append_assoc]
    exact bare_of_dyn _

theorem short_of_unbroken (h : ¬plus <:+: g.arguments) : g.type.short = String.ofList g.ending := by
  obtain ⟨rest, hrest, hshort⟩ := g.shortChars_written
  rw [Text.beforeFirst_append_cons (by decide) h, hrest] at hshort
  rw [TypeName.short, type, String.toList_ofList, hshort, ending, List.append_assoc]
  rfl

theorem short_of_plus (h : plus <:+: g.arguments) : g.type.short =
    String.ofList (g.path.segment.text ++ '<' :: Text.beforeFirst plus g.arguments) := by
  obtain ⟨rest, -, hshort⟩ := g.shortChars_written
  rw [Text.beforeFirst_append_of_infix h] at hshort
  rw [TypeName.short, type, String.toList_ofList, hshort]

theorem short_eq_ending_iff : g.type.short = String.ofList g.ending ↔ ¬plus <:+: g.arguments := by
  refine ⟨fun hshort hplus => ?_, short_of_unbroken⟩
  rw [short_of_plus hplus, String.ofList_inj] at hshort
  have hcut : (Text.beforeFirst plus g.arguments).length ≤ g.arguments.length :=
    (Text.beforeFirst_begins g.arguments).length_le
  have hlength := congrArg List.length hshort
  simp only [ending, List.length_append, List.length_cons, List.length_nil] at hlength
  omega

/-! ### The selector -/

theorem selector_eq (g : Generic) : g.selector = .parsed (String.ofList g.ending) none := by
  have hlast : g.ending.getLast? = some '>' := List.getLast?_concat
  have hlegible : Selector.Legible (String.ofList g.ending) none :=
    ⟨by simp [ending, ← String.toList_inj], by simp [hlast], by simp⟩
  have hparse := Selector.parse_of_legible hlegible
  rwa [Selector.display, Option.getD_none, String.append_empty] at hparse

theorem length_ending_lt (h : g.path.modules ≠ []) : g.ending.length < g.written.length := by
  obtain ⟨front, htext⟩ := g.path.text_of_modules h
  unfold ending written
  cases g.further with
  | none =>
    simp only [htext, List.length_append, List.length_cons, List.length_nil]
    omega
  | some bounds =>
    simp only [htext, List.length_append, List.length_cons, List.length_nil]
    omega

theorem name_ne_ending (h : g.path.modules ≠ []) : g.type.name ≠ String.ofList g.ending := by
  intro hname
  have hsame : g.written = g.ending := String.ofList_inj.mp hname
  exact Nat.lt_irrefl _ (hsame ▸ length_ending_lt h)

theorem answersTo_ending_iff (h : g.path.modules ≠ []) :
    g.type.answersTo (String.ofList g.ending) ↔ ¬plus <:+: g.arguments := by
  simp [TypeName.answersTo, name_ne_ending h, short_eq_ending_iff]

/-- A bean is matched if its type or one of its exports goes by the ending. -/
theorem matchesBean_iff (g : Generic) (bean : Bean) (exports : List TypeName) :
    g.selector.matchesBean bean exports ↔
      ∃ t ∈ bean.type :: exports, t.answersTo (String.ofList g.ending) := by
  rw [selector_eq]
  simp [Selector.matchesBean]

theorem matches_of_unbroken (hpath : g.path.modules ≠ []) (h : ¬plus <:+: g.arguments) {bean : Bean}
    {exports : List TypeName} (htype : bean.type = g.type ∨ g.type ∈ exports) :
    g.selector.matchesBean bean exports := by
  refine (g.matchesBean_iff bean exports).mpr ⟨g.type, ?_, (answersTo_ending_iff hpath).mpr h⟩
  rcases htype with htype | hexport
  · rw [htype]
    exact List.mem_cons_self
  · exact List.mem_cons_of_mem _ hexport

theorem mayMatch_selector (g : Generic) (bean : Bean) : g.selector.mayMatch bean := by
  rw [selector_eq]
  rfl

/-- The selector finds all beans that it matches, once they can be looked up. -/
theorem mem_find {c : Container} (hphase : c.phase = .refreshed) {b : Nat} {bean : Bean}
    (hbean : c.beans[b]? = some bean) (hactive : c.registry.status b ≠ .deleted)
    (hmatch : g.selector.matchesBean bean (c.registry.exports b)) :
    ∃ found, c.find g.selector = (.ok (.ok found), c) ∧ b ∈ found := by
  have hselects : c.plan.selects c.registry g.selector b := by
    rw [Plan.selects, show c.plan.beans[b]? = some bean from hbean]
    exact hmatch
  refine ⟨c.plan.lookup c.registry g.selector, ?_, ?_⟩
  · rw [Container.find, hphase]
  · rw [selector_eq] at hselects ⊢
    exact List.mem_filter.mpr ⟨Registry.mem_active.mpr hactive, hselects⟩

/-- For every path, with modules in front of the segment, and every text of the arguments, and for
an interface with any further bounds too: the short name is the segment with its arguments exactly
if there is no plus between blanks among them, and ends in front of the first plus otherwise. The
segment and the arguments with a colon behind select all beans that have the type or are exported
as it exactly in that case, and then a refreshed container finds them all. Where the arguments are
types as they are written, there is a plus exactly if an interface with further bounds stands in one
of them. -/
theorem arguments_kept_iff (g : Generic) (hpath : g.path.modules ≠ []) :
    (g.type.short = String.ofList g.ending ↔ ¬plus <:+: g.arguments) ∧
    (plus <:+: g.arguments → g.type.short =
      String.ofList (g.path.segment.text ++ '<' :: Text.beforeFirst plus g.arguments)) ∧
    ((∀ bean exports, bean.type = g.type ∨ g.type ∈ exports →
      g.selector.mayMatch bean ∧ g.selector.matchesBean bean exports) ↔ ¬plus <:+: g.arguments) ∧
    (¬plus <:+: g.arguments → ∀ (c : Container) (b : Nat) (bean : Bean), c.phase = .refreshed →
      c.beans[b]? = some bean → c.registry.status b ≠ .deleted →
      bean.type = g.type ∨ g.type ∈ c.registry.exports b →
        ∃ found, c.find g.selector = (.ok (.ok found), c) ∧ b ∈ found) ∧
    ∀ terms, g.arguments = commas (texts terms) →
      (plus <:+: g.arguments ↔ ∃ t ∈ terms, t.Compound) := by
  refine ⟨short_eq_ending_iff, short_of_plus, ⟨fun hall => ?_, fun h bean exports htype => ?_⟩,
    fun h c b bean hphase hbean hactive htype => ?_, fun terms hterms => ?_⟩
  · obtain ⟨t, ht, hanswers⟩ := (g.matchesBean_iff _ _).mp
      (hall (.plain g.type (.main 0) .window) [] (.inl rfl)).2
    obtain rfl : t = g.type := List.mem_singleton.mp ht
    exact (answersTo_ending_iff hpath).mp hanswers
  · exact ⟨g.mayMatch_selector bean, matches_of_unbroken hpath h htype⟩
  · exact mem_find hphase hbean hactive (matches_of_unbroken hpath h htype)
  · rw [hterms]
    exact TypeTerm.plus_infix_iff

/-- A codec for two types, one of them an interface without further bounds. -/
def codec : Generic where
  path := ⟨[{ text := "app".toList }, { text := "db".toList }], { text := "Codec".toList }⟩
  arguments := "app::Wrap<u8>, dyn app::Store<app::B>".toList
  further := some ["core::marker::Send".toList]

/-- A bean that is exported as the codec. -/
def coder : Bean :=
  let codecType : TypeName :=
    (.of "dyn app::db::Codec<app::Wrap<u8>, dyn app::Store<app::B>> + core::marker::Send")
  let bean := Bean.plain (.of "app::Coder") (.main 1) (.constructor ⟨[], .part, "coder", none⟩)
  (bean.declareCast codecType .itself).declareExport codecType

theorem arguments_kept_iff_of_codec :
    let c := ((Container.empty .standard ⟨[]⟩).performAll [.register coder, .refresh]).2
    codec.path.modules ≠ [] ∧
      codec.type.name =
        "dyn app::db::Codec<app::Wrap<u8>, dyn app::Store<app::B>> + core::marker::Send" ∧
      codec.type.short = "Codec<app::Wrap<u8>, dyn app::Store<app::B>>" ∧
      ∃ found, c.find codec.selector = (.ok (.ok found), c) ∧ 0 ∈ found := by
  intro c
  have hpath : codec.path.modules ≠ [] := by decide
  have hunbroken : ¬plus <:+: codec.arguments := by decide +kernel
  have hname : codec.type.name =
      "dyn app::db::Codec<app::Wrap<u8>, dyn app::Store<app::B>> + core::marker::Send" := by
    simp [type, written, codec, TypePath.text, plus]
  have hending : String.ofList codec.ending = "Codec<app::Wrap<u8>, dyn app::Store<app::B>>" := by
    simp [ending, codec]
  have hcoder : c.phase = .refreshed ∧ c.beans[0]?.isSome ∧ c.registry.status 0 ≠ .deleted ∧
      c.registry.exports 0 = coder.exports := by decide +kernel
  obtain ⟨hphase, hregistered, hactive, hexports⟩ := hcoder
  obtain ⟨bean, hbean⟩ := Option.isSome_iff_exists.mp hregistered
  obtain ⟨hshort, -, -, hfind, -⟩ := arguments_kept_iff codec hpath
  refine ⟨hpath, hname, (hshort.mpr hunbroken).trans hending,
    hfind hunbroken c 0 bean hphase hbean hactive (.inr ?_)⟩
  rw [hexports]
  have htype : codec.type =
      .of "dyn app::db::Codec<app::Wrap<u8>, dyn app::Store<app::B>> + core::marker::Send" :=
    TypeName.mk.injEq .. ▸ ⟨hname, rfl⟩
  exact List.mem_singleton.mpr htype

/-- A box for an interface with two further bounds. -/
def box : TypeTerm :=
  let marker (segment : Identifier) : TypeTerm :=
    .path ⟨[{ text := "core".toList }, { text := "marker".toList }], segment⟩ []
  .path ⟨[{ text := "alloc".toList }, { text := "boxed".toList }], { text := "Box".toList }⟩
    [.interface (.path ⟨[{ text := "app".toList }], { text := "Greeter".toList }⟩ [])
      [marker { text := "Send".toList }, marker { text := "Sync".toList }]]

def wrapped : Generic where
  path := ⟨[{ text := "app".toList }], { text := "Wrap".toList }⟩
  arguments := commas (texts [box])
  further := none

/-- The short name ends within the box, and the selector misses a bean of the type. -/
theorem short_of_wrapped :
    wrapped.path.modules ≠ [] ∧
      wrapped.type.name =
        "app::Wrap<alloc::boxed::Box<dyn app::Greeter + core::marker::Send + core::marker::Sync>>" ∧
      String.ofList wrapped.ending =
        "Wrap<alloc::boxed::Box<dyn app::Greeter + core::marker::Send + core::marker::Sync>>" ∧
      wrapped.type.short = "Wrap<alloc::boxed::Box<dyn app::Greeter" ∧
      ¬wrapped.selector.matchesBean (.plain wrapped.type (.main 1) .window) [] := by
  have hpath : wrapped.path.modules ≠ [] := by decide
  have harguments : wrapped.arguments =
      "alloc::boxed::Box<dyn app::Greeter + core::marker::Send + core::marker::Sync>".toList := by
    simp [wrapped, box, commas, texts, TypeTerm.text, TypeTerm.bracketed, TypePath.text, plus]
  have hplus : plus <:+: wrapped.arguments := by
    rw [harguments]
    decide +kernel
  refine ⟨hpath, ?_, ?_, (short_of_plus hplus).trans ?_, fun hmatch => ?_⟩
  · rw [type, written, harguments]
    simp [wrapped, TypePath.text]
  · rw [ending, harguments]
    simp [wrapped]
  · rw [harguments]
    decide +kernel
  · obtain ⟨t, ht, hanswers⟩ := (wrapped.matchesBean_iff _ _).mp hmatch
    obtain rfl : t = wrapped.type := List.mem_singleton.mp ht
    exact (answersTo_ending_iff hpath).mp hanswers hplus

end Generic
end Inversion
