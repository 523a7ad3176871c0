/-
# Flattening loses nothing

A leaf of a table stands at the end of a path: a key of the root, and the steps to keys and
places from there on. Flattening keeps each leaf under the text of its path and sets nothing
else (`mem_rootLeaves`). Where no key has a point or an opening bracket, a text tells the path
(`Path.text_inj`): each mark begins a step, and the step goes on up to the next mark. So no
leaf comes in the way of another (`flatten_lossless`).

The tables that `Toml.parse` reads from a text have no key twice (`parse_distinct`).
-/
import Inversion.Proofs.Properties
import Inversion.Proofs.Text.Cut
import Inversion.Properties.Source

namespace Inversion
namespace Toml

/-! ### Paths -/

/-- A step from a table to what stands under a key, or from an array to what stands at a
place. -/
inductive Step where
  | key (name : String)
  | place (index : Nat)
  deriving DecidableEq, Repr

namespace Step

def text : Step → String
  | key name => "." ++ name
  | place index => "[" ++ toString index ++ "]"

/-- The character that a step begins with. -/
def mark : Step → Char
  | key _ => '.'
  | place _ => '['

/-- What follows the mark. -/
def body : Step → List Char
  | key name => name.toList
  | place index => (toString index).toList ++ [']']

end Step

/-- The text of some steps. -/
def trail : List Step → String
  | [] => ""
  | step :: steps => step.text ++ trail steps

/-- A key of the root, and the steps from there. -/
structure Path where
  root : String
  steps : List Step
  deriving DecidableEq, Repr

def Path.text (path : Path) : String :=
  path.root ++ trail path.steps

/-- What stands at the end of some steps. -/
def Value.at? : List Step → Value → Option Value
  | [], v => some v
  | .key name :: steps, .table entries => (entries.lookup name).bind (at? steps)
  | .place index :: steps, .array items => items[index]?.bind (at? steps)
  | _ :: _, _ => none

/-- The leaf at the end of a path is `s`. -/
def IsLeaf (entries : List (String × Value)) (path : Path) (s : Scalar) : Prop :=
  (Value.table entries).at? (.key path.root :: path.steps) = some (.scalar s)

/-! ### Keys -/

/-- The keys of each table in a value have a property. -/
inductive Value.EachTable (P : List String → Prop) : Value → Prop
  | scalar (s : Scalar) : EachTable P (.scalar s)
  | array {items : List Value} (inside : ∀ v ∈ items, EachTable P v) : EachTable P (.array items)
  | table {entries : List (String × Value)} (keys : P (entries.map (·.1)))
    (inside : ∀ e ∈ entries, EachTable P e.2) : EachTable P (.table entries)

section
variable {P : List String → Prop} {items : List Value} {entries : List (String × Value)}

@[simp] theorem eachTable_scalar (s : Scalar) : (Value.scalar s).EachTable P :=
  .scalar s

@[simp] theorem eachTable_array : (Value.array items).EachTable P ↔ ∀ v ∈ items, v.EachTable P :=
  ⟨fun h => by cases h; assumption, .array⟩

@[simp] theorem eachTable_table : (Value.table entries).EachTable P ↔
    P (entries.map (·.1)) ∧ ∀ e ∈ entries, e.2.EachTable P :=
  ⟨fun h => by cases h; exact ⟨‹_›, ‹_›⟩, fun h => .table h.1 h.2⟩

end

theorem Value.EachTable.mono {P Q : List String → Prop} (hPQ : ∀ keys, P keys → Q keys) {v : Value}
    (h : v.EachTable P) : v.EachTable Q := by
  induction h with
  | scalar s => exact .scalar s
  | array _ ih => exact .array ih
  | table keys _ ih => exact .table (hPQ _ keys) ih

/-- The keys of each table in the value ascend. -/
abbrev Value.Ascending : Value → Prop :=
  EachTable (List.Pairwise (· < ·))

/-- No table in the value has a key twice. -/
abbrev Value.Distinct : Value → Prop :=
  EachTable List.Nodup

/-- No key in the value has a point or an opening bracket. -/
abbrev Value.Unmarked : Value → Prop :=
  EachTable fun keys => ∀ k ∈ keys, '.' ∉ k.toList ∧ '[' ∉ k.toList

/-! ### The end of a path -/

section
variable {v : Value} {entries : List (String × Value)} {items : List Value} {steps : List Step}
  {s : Scalar}

theorem at?_scalar {t : Scalar} :
    (Value.scalar t).at? steps = some (.scalar s) ↔ steps = [] ∧ s = t := by
  cases steps with
  | nil => simp [Value.at?, eq_comm]
  | cons step steps => cases step <;> simp [Value.at?]

theorem at?_array : (Value.array items).at? steps = some (.scalar s) ↔
    ∃ i v rest, items[i]? = some v ∧ v.at? rest = some (.scalar s) ∧ steps = .place i :: rest := by
  cases steps with
  | nil => simp [Value.at?]
  | cons step steps =>
    cases step with
    | key name => simp [Value.at?]
    | place index => simp [Value.at?, Option.bind_eq_some_iff]

theorem at?_table (h : (entries.map (·.1)).Nodup) :
    (Value.table entries).at? steps = some (.scalar s) ↔
      ∃ k v rest, (k, v) ∈ entries ∧ v.at? rest = some (.scalar s) ∧ steps = .key k :: rest := by
  cases steps with
  | nil => simp [Value.at?]
  | cons step steps =>
    cases step with
    | key name => simp [Value.at?, Option.bind_eq_some_iff, lookup_eq_some_iff_mem h]
    | place index => simp [Value.at?]

end

/-! ### The leaves -/

section
variable {path : String} {e : String × String}

theorem mem_itemLeaves : ∀ {items : List Value} {i : Nat}, e ∈ itemLeaves path i items ↔
    ∃ (j : Nat) (v : Value), items[j]? = some v ∧ e ∈ v.leaves (path ++ (Step.place (i + j)).text)
  | [], _ => by simp [itemLeaves]
  | v :: items, i => by
    have hpath : path ++ "[" ++ toString i ++ "]" = path ++ (Step.place i).text := by
      simp [Step.text, String.append_assoc]
    rw [itemLeaves, List.mem_append, mem_itemLeaves, hpath]
    constructor
    · rintro (hv | ⟨j, w, hj, hw⟩)
      · exact ⟨0, v, rfl, hv⟩
      · refine ⟨j + 1, w, hj, ?_⟩
        rwa [show i + (j + 1) = i + 1 + j by omega]
    · rintro ⟨j, w, hj, hw⟩
      cases j with
      | zero =>
        cases hj
        exact .inl hw
      | succ j =>
        refine .inr ⟨j, w, hj, ?_⟩
        rwa [show i + 1 + j = i + (j + 1) by omega]

theorem mem_entryLeaves : ∀ {entries : List (String × Value)}, e ∈ entryLeaves path entries ↔
    ∃ x ∈ entries, e ∈ x.2.leaves (path ++ (Step.key x.1).text)
  | [] => by simp [entryLeaves]
  | (k, v) :: entries => by
    have hpath : path ++ "." ++ k = path ++ (Step.key k).text := by
      simp [Step.text, String.append_assoc]
    rw [entryLeaves, List.mem_append, mem_entryLeaves, hpath, List.exists_mem_cons_iff]

/-- The leaves of a value are the scalars at the ends of its paths. -/
theorem mem_leaves {v : Value} (h : v.Distinct) : ∀ {path : String}, e ∈ v.leaves path ↔
    ∃ steps s, v.at? steps = some (.scalar s) ∧ e = (path ++ trail steps, s.display) := by
  induction h with
  | scalar t =>
    intro path
    simp [Value.leaves, at?_scalar, trail]
  | array inside ih =>
    intro path
    rw [Value.leaves, mem_itemLeaves]
    constructor
    · rintro ⟨i, v, hi, hv⟩
      obtain ⟨rest, s, hrest, rfl⟩ := (ih v (List.mem_of_getElem? hi)).mp hv
      refine ⟨.place i :: rest, s, at?_array.mpr ⟨i, v, rest, hi, hrest, rfl⟩, ?_⟩
      rw [trail, String.append_assoc, Nat.zero_add]
    · rintro ⟨steps, s, hs, rfl⟩
      obtain ⟨i, v, rest, hi, hrest, rfl⟩ := at?_array.mp hs
      refine ⟨i, v, hi, (ih v (List.mem_of_getElem? hi)).mpr ⟨rest, s, hrest, ?_⟩⟩
      rw [trail, String.append_assoc, Nat.zero_add]
  | table keys inside ih =>
    intro path
    rw [Value.leaves, mem_entryLeaves]
    constructor
    · rintro ⟨⟨k, v⟩, hk, hv⟩
      obtain ⟨rest, s, hrest, rfl⟩ := (ih (k, v) hk).mp hv
      refine ⟨.key k :: rest, s, (at?_table keys).mpr ⟨k, v, rest, hk, hrest, rfl⟩, ?_⟩
      rw [trail, String.append_assoc]
    · rintro ⟨steps, s, hs, rfl⟩
      obtain ⟨k, v, rest, hk, hrest, rfl⟩ := (at?_table keys).mp hs
      refine ⟨(k, v), hk, (ih (k, v) hk).mpr ⟨rest, s, hrest, ?_⟩⟩
      rw [trail, String.append_assoc]

theorem mem_rootLeaves_iff_exists : ∀ {entries : List (String × Value)}, e ∈ rootLeaves entries ↔
    ∃ x ∈ entries, e ∈ x.2.leaves x.1
  | [] => by simp [rootLeaves]
  | (k, v) :: entries => by
    rw [rootLeaves, List.mem_append, mem_rootLeaves_iff_exists, List.exists_mem_cons_iff]

/-- What flattening sets: each leaf, under the text of its path. -/
theorem mem_rootLeaves {entries : List (String × Value)} (h : (Value.table entries).Distinct) :
    e ∈ rootLeaves entries ↔
      ∃ path s, IsLeaf entries path s ∧ e = (path.text, s.display) := by
  cases h with
  | table keys inside =>
    rw [mem_rootLeaves_iff_exists]
    constructor
    · rintro ⟨⟨k, v⟩, hk, hv⟩
      obtain ⟨rest, s, hrest, rfl⟩ := (mem_leaves (inside (k, v) hk)).mp hv
      exact ⟨⟨k, rest⟩, s, (at?_table keys).mpr ⟨k, v, rest, hk, hrest, rfl⟩, rfl⟩
    · rintro ⟨⟨k, rest⟩, s, hs, rfl⟩
      obtain ⟨l, v, rest', hl, hrest, heq⟩ := (at?_table keys).mp hs
      cases heq
      exact ⟨(k, v), hl, (mem_leaves (inside (k, v) hl)).mpr ⟨rest, s, hrest, rfl⟩⟩

end

/-! ### Texts of paths -/

/-- The marks that steps begin with. -/
def IsMark (c : Char) : Prop :=
  c = '.' ∨ c = '['

namespace Step

theorem isMark_mark : ∀ step : Step, IsMark step.mark
  | key _ => .inl rfl
  | place _ => .inr rfl

theorem toList_text : ∀ step : Step, step.text.toList = step.mark :: step.body
  | key _ => by simp [text, mark, body]
  | place _ => by simp [text, mark, body]

theorem eq_of_mark_of_body : ∀ {step other : Step}, step.mark = other.mark → step.body = other.body →
    step = other
  | key _, key _, _, hbody => congrArg key (String.toList_inj.mp hbody)
  | place i, place j, _, hbody => by
    have htext : toString i = toString j := String.toList_inj.mp (List.append_cancel_right hbody)
    exact congrArg place (Text.natText_inj htext)
  | key _, place _, hmark, _ => absurd hmark (by simp [mark])
  | place _, key _, hmark, _ => absurd hmark (by simp [mark])

/-- The step has no mark but the one that it begins with. -/
def Plain (step : Step) : Prop :=
  ∀ c ∈ step.body, ¬IsMark c

theorem plain_place (index : Nat) : (place index).Plain := by
  rintro c hc hmark
  rw [body, List.mem_append, List.mem_singleton] at hc
  rcases hc with hc | rfl
  · have hdigit := Text.isDigit_of_mem_natText hc
    rcases hmark with rfl | rfl <;> exact absurd hdigit (by decide)
  · rcases hmark with h | h <;> exact absurd h (by decide)

end Step

theorem not_isMark {k : String} (h : '.' ∉ k.toList ∧ '[' ∉ k.toList) : ∀ c ∈ k.toList, ¬IsMark c := by
  rintro c hc (rfl | rfl)
  · exact h.1 hc
  · exact h.2 hc

theorem plain_of_at? {steps : List Step} : ∀ {v w : Value}, v.Unmarked → v.at? steps = some w →
    ∀ step ∈ steps, step.Plain := by
  induction steps with
  | nil => exact fun _ _ step hstep => absurd hstep List.not_mem_nil
  | cons step steps ih =>
    intro v w hv hw
    cases hv with
    | scalar t => cases step <;> simp [Value.at?] at hw
    | array inside =>
      cases step with
      | key name => simp [Value.at?] at hw
      | place index =>
        obtain ⟨u, hu, hrest⟩ := Option.bind_eq_some_iff.mp hw
        exact List.forall_mem_cons.mpr
          ⟨Step.plain_place index, ih (inside u (List.mem_of_getElem? hu)) hrest⟩
    | table keys inside =>
      cases step with
      | place index => simp [Value.at?] at hw
      | key name =>
        obtain ⟨u, hu, hrest⟩ := Option.bind_eq_some_iff.mp hw
        obtain ⟨before, after, rfl, -⟩ := List.lookup_eq_some_iff.mp hu
        have hname := keys name (by simp)
        exact List.forall_mem_cons.mpr ⟨not_isMark hname, ih (inside (name, u) (by simp)) hrest⟩

theorem head?_trail : ∀ steps : List Step, ∀ c ∈ (trail steps).toList.head?, IsMark c
  | [], c, h => by simp [trail] at h
  | step :: steps, c, h => by
    rw [trail, String.toList_append, step.toList_text, List.cons_append, List.head?_cons,
      Option.mem_some_iff] at h
    exact h ▸ step.isMark_mark

/-- Steps are told from their text. -/
theorem trail_inj : ∀ {steps others : List Step}, (∀ step ∈ steps, step.Plain) →
    (∀ step ∈ others, step.Plain) → trail steps = trail others → steps = others
  | [], [], _, _, _ => rfl
  | [], step :: others, _, _, h => by
    have := congrArg String.toList h
    simp [trail, step.toList_text] at this
  | step :: steps, [], _, _, h => by
    have := congrArg String.toList h
    simp [trail, step.toList_text] at this
  | step :: steps, other :: others, hs, ho, h => by
    have hchars := congrArg String.toList h
    simp only [trail, String.toList_append, Step.toList_text, List.cons_append] at hchars
    obtain ⟨hmark, hrest⟩ := List.cons.inj hchars
    obtain ⟨hbody, htrail⟩ := Text.append_inj_of_cut (head?_trail steps) (head?_trail others)
      (hs step List.mem_cons_self) (ho other List.mem_cons_self) hrest
    have hsteps : steps = others := trail_inj (fun s h => hs s (List.mem_cons_of_mem _ h))
      (fun s h => ho s (List.mem_cons_of_mem _ h)) (String.toList_inj.mp htrail)
    rw [Step.eq_of_mark_of_body hmark hbody, hsteps]

/-- Leaves under one text are one leaf. -/
theorem Path.text_inj {entries : List (String × Value)} (h : (Value.table entries).Unmarked)
    {path other : Path} {s t : Scalar} (hs : IsLeaf entries path s) (ht : IsLeaf entries other t)
    (heq : path.text = other.text) : path = other := by
  have hpath := List.forall_mem_cons.mp (plain_of_at? h hs)
  have hother := List.forall_mem_cons.mp (plain_of_at? h ht)
  have hchars : path.root.toList ++ (trail path.steps).toList =
      other.root.toList ++ (trail other.steps).toList := by
    rw [← String.toList_append, ← String.toList_append]
    exact congrArg String.toList heq
  obtain ⟨hroot, htrail⟩ := Text.append_inj_of_cut (head?_trail path.steps) (head?_trail other.steps)
    hpath.1 hother.1 hchars
  have hsteps := trail_inj hpath.2 hother.2 (String.toList_inj.mp htrail)
  cases path
  cases other
  cases String.toList_inj.mp hroot
  cases hsteps
  rfl

/-! ### Tables that are read -/

mutual
theorem normal?_ascending : ∀ {v w : Value}, v.normal? = some w → w.Ascending
  | .scalar s, w, h => by
    rw [Value.normal?] at h
    cases h
    exact .scalar s
  | .array items, w, h => by
    rw [Value.normal?] at h
    obtain ⟨items', hitems, rfl⟩ := Option.map_eq_some_iff.mp h
    exact .array (normalItems?_ascending hitems)
  | .table entries, w, h => by
    rw [Value.normal?] at h
    split at h
    · obtain ⟨m, -, rfl⟩ := Option.map_eq_some_iff.mp h
      exact .scalar (.moment m)
    · obtain ⟨entries', hentries, rfl⟩ := Option.map_eq_some_iff.mp h
      exact normalEntries?_ascending hentries

theorem normalItems?_ascending : ∀ {items items' : List Value}, normalItems? items = some items' →
    ∀ v ∈ items', v.Ascending
  | [], items', h => by
    rw [normalItems?] at h
    cases h
    exact fun v hv => absurd hv List.not_mem_nil
  | v :: items, items', h => by
    rw [normalItems?] at h
    obtain ⟨v', hv, h⟩ := Option.bind_eq_some_iff.mp h
    obtain ⟨rest, hrest, h⟩ := Option.bind_eq_some_iff.mp h
    cases h
    exact List.forall_mem_cons.mpr ⟨normal?_ascending hv, normalItems?_ascending hrest⟩

theorem normalEntries?_ascending : ∀ {entries entries' : List (String × Value)},
    normalEntries? entries = some entries' → (Value.table entries').Ascending
  | [], entries', h => by
    rw [normalEntries?] at h
    cases h
    exact .table List.Pairwise.nil fun e he => absurd he List.not_mem_nil
  | (k, v) :: entries, entries', h => by
    rw [normalEntries?] at h
    obtain ⟨v', hv, h⟩ := Option.bind_eq_some_iff.mp h
    obtain ⟨rest, hrest, h⟩ := Option.bind_eq_some_iff.mp h
    cases h
    cases normalEntries?_ascending hrest with
    | table keys inside =>
      refine .table ?_ fun e he => ?_
      · exact List.pairwise_map.mpr (pairwise_insertEntry (List.pairwise_map.mp keys))
      · rcases mem_insertEntry he with rfl | he
        · exact normal?_ascending hv
        · exact inside e he
end

/-- No table that is read from a text has a key twice. -/
theorem parse_distinct {text : String} {entries : List (String × Value)}
    (h : parse text = some entries) : (Value.table entries).Distinct := by
  unfold parse at h
  obtain ⟨d, -, h⟩ := Option.bind_eq_some_iff.mp h
  obtain ⟨root, -, h⟩ := Option.bind_eq_some_iff.mp h
  split at h
  · exact (normalEntries?_ascending h).mono fun keys hkeys =>
      List.nodup_iff_pairwise_ne.mpr (hkeys.imp fun hlt => String.ne_of_lt hlt)
  · cases h

end Toml

namespace Properties

open Toml

/-- Loading a table sets every leaf, for a store of whatever contents. The key of a leaf is the
text of its path, its value is the text of the leaf, and no two leaves have one key; a key that
is the path of no leaf keeps its value, or stays without one. This is so for every table whose
keys have no point and no opening bracket, and to load a document is to load the table that is
read from it, whoever reads it. -/
theorem flatten_lossless :
    (∀ (read : String → Option (List (String × Value))) text entries, read text = some entries →
      ∀ p : Properties, p.loadWith read .toml text = (.ok (), p.loadTable entries)) ∧
    ∀ entries, (Value.table entries).Distinct → (Value.table entries).Unmarked →
      ∀ p : Properties,
        (∀ path s, IsLeaf entries path s → (p.loadTable entries).get? path.text = some s.display) ∧
        (∀ path other s t, IsLeaf entries path s → IsLeaf entries other t →
          path.text = other.text → path = other) ∧
        ∀ key, (∀ path s, IsLeaf entries path s → path.text ≠ key) →
          (p.loadTable entries).get? key = p.get? key := by
  refine ⟨fun read text entries h p => ?_, fun entries hd hu p => ?_⟩
  · unfold loadWith
    rw [h]
  refine ⟨fun path s hs => ?_, fun path other s t hs ht => Path.text_inj hu hs ht,
    fun key hkey => ?_⟩
  · refine get?_insertAll_of_unique ((mem_rootLeaves hd).mpr ⟨path, s, hs, rfl⟩) fun w hw => ?_
    obtain ⟨other, t, ht, heq⟩ := (mem_rootLeaves hd).mp hw
    obtain ⟨htext, rfl⟩ := Prod.mk.inj heq
    obtain rfl := Path.text_inj hu hs ht htext
    have hleaf : s = t := by simpa using hs.symm.trans ht
    rw [hleaf]
  · refine get?_insertAll_of_not_mem fun w hw => ?_
    obtain ⟨path, s, hs, heq⟩ := (mem_rootLeaves hd).mp hw
    exact hkey path s hs (Prod.mk.inj heq).1.symm

/-- Arrays and tables in an array, keys without a character, one with a closing bracket, and
containers without a leaf. -/
def cellar : List (String × Value) :=
  [("", .scalar (.text "dark")),
    ("racks", .array
      [.table [("", .array []), ("wine", .scalar (.integer 12))],
        .array [.scalar (.flag true), .array [.scalar (.text "cork")]]]),
    ("racks]", .table [("", .table [("", .scalar (.text "oak"))]), ("spare", .table [])])]

def cellarText : String :=
  "racks = [\x7b wine = 12, '' = [] \x7d, [true, ['cork']]]\n'' = 'dark'\n" ++
    "['racks]'.spare]\n['racks]'.'']\n'' = 'oak'\n"

theorem flatten_lossless_of_cellar :
    let p := (empty.insert "racks[1][0]" "false").insert "racks[0]" "empty"
    (Value.table cellar).Distinct ∧ (Value.table cellar).Unmarked ∧
      IsLeaf cellar ⟨"racks", [.place 1, .place 0]⟩ (.flag true) ∧
      IsLeaf cellar ⟨"racks]", [.key "", .key ""]⟩ (.text "oak") ∧
      (p.loadTable cellar).get? "racks[1][0]" = some "true" ∧
      (p.loadTable cellar).get? "racks].." = some "oak" ∧
      (∀ path s, IsLeaf cellar path s → path.text ≠ "racks[0]") ∧
      (p.loadTable cellar).get? "racks[0]" = some "empty" ∧
      ∃ entries, parse cellarText = some entries ∧ (Value.table entries).Distinct ∧
        rootLeaves entries = rootLeaves cellar ∧
        p.load .toml cellarText = (.ok (), p.loadTable entries) := by
  intro p
  have hdistinct : (Value.table cellar).Distinct := by simp [cellar]
  have hunmarked : (Value.table cellar).Unmarked := by simp [cellar]
  have hflag : IsLeaf cellar ⟨"racks", [.place 1, .place 0]⟩ (.flag true) := rfl
  have hoak : IsLeaf cellar ⟨"racks]", [.key "", .key ""]⟩ (.text "oak") := rfl
  have hnone : ∀ path s, IsLeaf cellar path s → path.text ≠ "racks[0]" := by
    intro path s hs htext
    have hin := (mem_rootLeaves hdistinct).mpr ⟨path, s, hs, rfl⟩
    rw [htext] at hin
    have hkey : "racks[0]" ∈ (rootLeaves cellar).map (·.1) := List.mem_map_of_mem hin
    exact absurd hkey (by decide +kernel)
  obtain ⟨hload, htable⟩ := flatten_lossless
  obtain ⟨hleaves, -, hothers⟩ := htable cellar hdistinct hunmarked p
  have hread : (parse cellarText).map rootLeaves = some (rootLeaves cellar) := by decide +kernel
  obtain ⟨entries, hentries, hsame⟩ := Option.map_eq_some_iff.mp hread
  exact ⟨hdistinct, hunmarked, hflag, hoak, hleaves _ _ hflag, hleaves _ _ hoak, hnone,
    hothers _ hnone, entries, hentries, parse_distinct hentries, hsame, hload parse _ _ hentries p⟩

end Properties
end Inversion
